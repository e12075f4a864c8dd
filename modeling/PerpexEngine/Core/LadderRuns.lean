import PerpexEngine.Core.SideStorage

/-! Runs of a ladder on its own: whatever was created and removed, and wherever the head stands, the
best level is the stored one with the best tick. -/
namespace PerpexEngine
namespace RingPriceLadder

section Runs

/-- A call on the ladder, or a change of a level by its holder, who leaves the price as it is. -/
inductive Op where
  | getOrCreateLevel (price : Price)
  | removeLevelIfEmpty (price : Price)
  | clearSlot (slotIndex : ℕ)
  | updateLevel (level : LevelPtr) (change : PriceLevel → PriceLevel)

def Op.run (state : RingPriceLadder × Heap PriceLevel) : Op → RingPriceLadder × Heap PriceLevel
  | .getOrCreateLevel price => (state.1.getOrCreateLevel state.2 price).2
  | .removeLevelIfEmpty price => state.1.removeLevelIfEmpty state.2 price
  | .clearSlot slotIndex =>
    (state.1.clearSlot slotIndex,
      match state.1.slotAt slotIndex with
      | some level => state.2.free level
      | none => state.2)
  | .updateLevel level change =>
    (state.1, state.2.modify level fun l => { change l with price := l.price })

/-- A ladder without levels, its head anywhere. -/
def emptyAt (side : Side) (tickSizeTicks baseTick : ℤ) (capacity headIndex : ℕ) : RingPriceLadder :=
  { RingPriceLadder.new side tickSizeTicks baseTick capacity with headIndex := headIndex }

end Runs

section Window

/-- What places a tick in the ring. -/
structure SameWindow (a b : RingPriceLadder) : Prop where
  side : b.side = a.side
  tickSizeTicks : b.tickSizeTicks = a.tickSizeTicks
  baseTick : b.baseTick = a.baseTick
  headIndex : b.headIndex = a.headIndex
  capacity : b.capacity = a.capacity

variable {a b c : RingPriceLadder}

theorem SameWindow.refl (a : RingPriceLadder) : SameWindow a a := ⟨rfl, rfl, rfl, rfl, rfl⟩

theorem SameWindow.trans (h : SameWindow a b) (h' : SameWindow b c) : SameWindow a c :=
  ⟨h'.side.trans h.side, h'.tickSizeTicks.trans h.tickSizeTicks, h'.baseTick.trans h.baseTick,
    h'.headIndex.trans h.headIndex, h'.capacity.trans h.capacity⟩

theorem sameWindow_setSlot (a : RingPriceLadder) (i : ℕ) (p : Option LevelPtr) :
    SameWindow a (a.setSlot i p) := ⟨rfl, rfl, rfl, rfl, rfl⟩

theorem sameWindow_markActive (a : RingPriceLadder) (i : ℕ) : SameWindow a (a.markActive i) := by
  unfold markActive
  split <;> exact ⟨rfl, rfl, rfl, rfl, rfl⟩

theorem sameWindow_markInactive (a : RingPriceLadder) (i : ℕ) :
    SameWindow a (a.markInactive i) := by
  unfold markInactive
  split <;> exact ⟨rfl, rfl, rfl, rfl, rfl⟩

theorem sameWindow_clearSlot (a : RingPriceLadder) (i : ℕ) : SameWindow a (a.clearSlot i) := by
  unfold clearSlot
  split
  · exact .refl a
  · exact (sameWindow_setSlot a i none).trans (sameWindow_markInactive _ i)

theorem SameWindow.containsTick (h : SameWindow a b) (t : ℤ) :
    b.containsTick t = a.containsTick t := by
  rw [RingPriceLadder.containsTick, RingPriceLadder.containsTick, h.capacity, h.baseTick]

theorem SameWindow.priceTickToSlot (h : SameWindow a b) (t : ℤ) :
    b.priceTickToSlot t = a.priceTickToSlot t := by
  rw [RingPriceLadder.priceTickToSlot, RingPriceLadder.priceTickToSlot, h.headIndex, h.baseTick,
    h.capacity]

end Window

section Populated
variable {ladder ladder' : RingPriceLadder} {levels levels' : Heap PriceLevel}

def tickOf (ladder : RingPriceLadder) (level : PriceLevel) : ℤ :=
  priceToLadderTick level.price ladder.tickSizeTicks

/-- Every slot that holds a level is the one of its tick. -/
structure Populated (ladder : RingPriceLadder) (levels : Heap PriceLevel) : Prop where
  wellFormed : ladder.WellFormed
  level : ∀ i p, ladder.slotAt i = some p → ∃ l, levels.read p = some l ∧
    ladder.containsTick (ladder.tickOf l) = true ∧ ladder.priceTickToSlot (ladder.tickOf l) = i

/-- A level is in one slot only. -/
theorem Populated.slot_unique (h : Populated ladder levels) {i j : ℕ} {p : LevelPtr}
    (hi : ladder.slotAt i = some p) (hj : ladder.slotAt j = some p) : i = j := by
  obtain ⟨l, hl, -, rfl⟩ := h.level i p hi
  obtain ⟨l', hl', -, rfl⟩ := h.level j p hj
  rw [Option.some.inj (hl.symm.trans hl')]

/-- Each slot that is still held keeps its level and the price of it. -/
theorem Populated.congr (h : Populated ladder levels) (hwindow : SameWindow ladder ladder')
    (hformed : ladder'.WellFormed)
    (hslots : ∀ i p, ladder'.slotAt i = some p → ladder.slotAt i = some p ∧
      (levels'.read p).map PriceLevel.price = (levels.read p).map PriceLevel.price) :
    Populated ladder' levels' := by
  refine ⟨hformed, fun i p hp => ?_⟩
  obtain ⟨hp, hprice⟩ := hslots i p hp
  obtain ⟨l, hl, htick, hslot⟩ := h.level i p hp
  rw [hl] at hprice
  obtain ⟨l', hl', hsame⟩ := Option.map_eq_some_iff.1 hprice
  have htickOf : ladder'.tickOf l' = ladder.tickOf l := by
    rw [tickOf, tickOf, hsame, hwindow.tickSizeTicks]
  exact ⟨l', hl', by rw [htickOf, hwindow.containsTick, htick],
    by rw [htickOf, hwindow.priceTickToSlot, hslot]⟩

theorem WellFormed.markInactive_empty (h : ladder.WellFormed) {i : ℕ} (hi : i < ladder.capacity)
    (hslot : ladder.slotAt i = none) : (ladder.markInactive i).WellFormed ∧
      ∀ j, (ladder.markInactive i).slotAt j = ladder.slotAt j := by
  have hbits := h.markInactive_bit hi
  have hslots : ∀ j, (ladder.markInactive i).slotAt j = ladder.slotAt j := by
    intro j
    rw [markInactive, if_neg (by omega)]
    rfl
  refine ⟨⟨?_, ?_, ?_, fun j => ?_⟩, hslots⟩
  · rw [markInactive, if_neg (by omega)]
    exact h.slots_size
  · rw [markInactive, if_neg (by omega)]
    simpa using h.bitmap_size
  · rw [markInactive, if_neg (by omega)]
    exact h.head_lt
  · rw [hslots]
    refine (hbits j).trans ?_
    by_cases hj : j = i
    · rw [hj, hslot]
      simp
    · simp [hj]

theorem Populated.clear (h : Populated ladder levels) (i : ℕ) :
    Populated (ladder.clearSlot i) (match ladder.slotAt i with
      | some level => levels.free level
      | none => levels) := by
  by_cases hi : i < ladder.capacity
  · obtain ⟨hformed, hslots⟩ := h.wellFormed.clearSlot hi
    refine h.congr (sameWindow_clearSlot ladder i) hformed fun j p hp => ?_
    rw [hslots] at hp
    split at hp
    · cases hp
    · rename_i hji
      refine ⟨hp, ?_⟩
      split
      · rename_i level hlevel
        have hne : p ≠ level := fun heq => hji (h.slot_unique hp (heq.symm ▸ hlevel))
        rw [Heap.read_free_of_ne hne]
      · rfl
  · rw [h.wellFormed.slotAt_ge (not_lt.1 hi), RingPriceLadder.clearSlot, if_pos (not_lt.1 hi)]
    exact h

/-- A new level goes into the slot of its tick. -/
theorem Populated.fill (h : Populated ladder levels) {price : Price} {i : ℕ}
    (hcapacity : ladder.capacity ≠ 0)
    (htick : ladder.containsTick (priceToLadderTick price ladder.tickSizeTicks) = true)
    (hi : ladder.priceTickToSlot (priceToLadderTick price ladder.tickSizeTicks) = i) :
    Populated ((ladder.setSlot i (some levels.next)).markActive i) (levels.alloc (.new price)) ∧
      SameWindow ladder ((ladder.setSlot i (some levels.next)).markActive i) := by
  have hlt : i < ladder.capacity := hi ▸ Nat.mod_lt _ (Nat.pos_of_ne_zero hcapacity)
  obtain ⟨hformed, hslots⟩ := h.wellFormed.fillSlot hlt levels.next
  have hwindow : SameWindow ladder ((ladder.setSlot i (some levels.next)).markActive i) :=
    (sameWindow_setSlot ladder i _).trans (sameWindow_markActive _ i)
  refine ⟨⟨hformed, fun j p hp => ?_⟩, hwindow⟩
  simp only [tickOf, hwindow.tickSizeTicks, hwindow.containsTick, hwindow.priceTickToSlot]
  rw [hslots] at hp
  split at hp
  · rename_i hj
    cases hp
    exact ⟨_, Heap.read_alloc_self _ _, htick, hi.trans hj.symm⟩
  · obtain ⟨l, hl, htick', hslot⟩ := h.level j p hp
    have hne : p ≠ levels.next := fun heq => by
      rw [heq, Heap.read_next] at hl
      cases hl
    exact ⟨l, by rw [Heap.read_alloc_of_ne hne, hl], htick', hslot⟩

theorem Populated.create (h : Populated ladder levels) (price : Price) :
    Populated (ladder.getOrCreateLevel levels price).2.1
      (ladder.getOrCreateLevel levels price).2.2 ∧
    SameWindow ladder (ladder.getOrCreateLevel levels price).2.1 := by
  unfold getOrCreateLevel
  split
  · exact ⟨h, .refl ladder⟩
  simp only
  split
  · exact ⟨h, .refl ladder⟩
  rename_i hcap hcontains
  split
  · rename_i level hlevel
    rw [h.wellFormed.markActive_self hlevel]
    exact ⟨h, .refl ladder⟩
  · exact h.fill hcap (by simpa using hcontains) rfl

theorem Populated.remove (h : Populated ladder levels) (price : Price) :
    Populated (ladder.removeLevelIfEmpty levels price).1
      (ladder.removeLevelIfEmpty levels price).2 ∧
    SameWindow ladder (ladder.removeLevelIfEmpty levels price).1 := by
  unfold removeLevelIfEmpty
  split
  · exact ⟨h, .refl ladder⟩
  simp only
  split
  · exact ⟨h, .refl ladder⟩
  rename_i hcap hcontains
  have hi : ladder.priceTickToSlot (priceToLadderTick price ladder.tickSizeTicks) <
      ladder.capacity := Nat.mod_lt _ (Nat.pos_of_ne_zero hcap)
  have hclear := h.clear (ladder.priceTickToSlot (priceToLadderTick price ladder.tickSizeTicks))
  split
  · rename_i hempty
    obtain ⟨hformed, hslots⟩ := h.wellFormed.markInactive_empty hi hempty
    have hwindow := sameWindow_markInactive ladder
      (ladder.priceTickToSlot (priceToLadderTick price ladder.tickSizeTicks))
    exact ⟨h.congr hwindow hformed fun j p hp => ⟨hslots j ▸ hp, rfl⟩, hwindow⟩
  · rename_i level hlevel
    split
    · rw [hlevel] at hclear
      exact ⟨hclear, sameWindow_clearSlot ladder _⟩
    · exact ⟨h, .refl ladder⟩

theorem Populated.update (h : Populated ladder levels) (level : LevelPtr)
    (change : PriceLevel → PriceLevel) :
    Populated ladder (levels.modify level fun l => { change l with price := l.price }) :=
  h.congr (.refl ladder) h.wellFormed fun _ p hp =>
    ⟨hp, Heap.read_modify_map (f := fun l : PriceLevel => { change l with price := l.price })
      (g := PriceLevel.price) (fun _ => rfl) levels level p⟩

/-- A step keeps the levels in the slots of their ticks. -/
theorem Populated.step (h : Populated ladder levels) (op : Op) :
    Populated (op.run (ladder, levels)).1 (op.run (ladder, levels)).2 ∧
      SameWindow ladder (op.run (ladder, levels)).1 := by
  cases op with
  | getOrCreateLevel price => exact h.create price
  | removeLevelIfEmpty price => exact h.remove price
  | clearSlot slotIndex => exact ⟨h.clear slotIndex, sameWindow_clearSlot ladder slotIndex⟩
  | updateLevel level change => exact ⟨h.update level change, .refl ladder⟩

theorem Populated.run (h : Populated ladder levels) (ops : List Op) :
    Populated (ops.foldl Op.run (ladder, levels)).1 (ops.foldl Op.run (ladder, levels)).2 ∧
      SameWindow ladder (ops.foldl Op.run (ladder, levels)).1 := by
  induction ops generalizing ladder levels with
  | nil => exact ⟨h, .refl ladder⟩
  | cons op ops ih =>
    obtain ⟨hstep, hwindow⟩ := h.step op
    obtain ⟨hrun, hwindow'⟩ := ih hstep
    exact ⟨hrun, hwindow.trans hwindow'⟩

theorem populated_emptyAt (side : Side) (tickSizeTicks baseTick : ℤ) {capacity headIndex : ℕ}
    (hhead : headIndex < capacity) :
    Populated (emptyAt side tickSizeTicks baseTick capacity headIndex) Heap.empty := by
  obtain ⟨hformed, hslots⟩ := new_wellFormed side tickSizeTicks baseTick capacity
  have hslots' : ∀ i, (emptyAt side tickSizeTicks baseTick capacity headIndex).slotAt i = none :=
    hslots
  refine ⟨⟨hformed.slots_size, hformed.bitmap_size, fun _ => hhead, hformed.bit_iff⟩, ?_⟩
  intro i p hp
  rw [hslots'] at hp
  cases hp

end Populated

section Best
variable {ladder : RingPriceLadder} {levels : Heap PriceLevel}

/-- One tick is better than another one. -/
def betterTick : Side → ℤ → ℤ → Prop
  | .buy, tick, other => other < tick
  | .sell, tick, other => tick < other

theorem Populated.atOffset (h : Populated ladder levels) {i : ℕ} {p : LevelPtr} {l : PriceLevel}
    (hp : ladder.slotAt i = some p) (hl : levels.read p = some l) :
    ladder.baseTick ≤ ladder.tickOf l ∧
      (ladder.tickOf l - ladder.baseTick).toNat < ladder.capacity ∧
      ladder.atOffset (ladder.tickOf l - ladder.baseTick).toNat = some p := by
  obtain ⟨l', hl', htick, hslot⟩ := h.level i p hp
  cases hl.symm.trans hl'
  obtain ⟨hbase, hcapacity⟩ := (containsTick_iff _).1 htick
  refine ⟨hbase, hcapacity, ?_⟩
  rw [RingPriceLadder.atOffset]
  exact (congrArg ladder.slotAt hslot).trans hp

/-- An occupied offset is that of the tick of its level. -/
theorem Populated.tick_eq (h : Populated ladder levels) {k : ℕ} {p : LevelPtr}
    (hk : k < ladder.capacity) (hp : ladder.atOffset k = some p) :
    ∃ l, levels.read p = some l ∧ ladder.tickOf l = ladder.baseTick + k := by
  obtain ⟨l, hl, htick, hslot⟩ := h.level _ p hp
  obtain ⟨hbase, hcapacity⟩ := (containsTick_iff _).1 htick
  have hoffset : (ladder.tickOf l - ladder.baseTick).toNat = k :=
    (Nat.ModEq.add_left_cancel' ladder.headIndex hslot).eq_of_lt_of_lt hcapacity hk
  exact ⟨l, hl, by omega⟩

/-- Nothing where no slot holds a level, else the level with the best tick. -/
def BestStored (ladder : RingPriceLadder) (levels : Heap PriceLevel) : Option LevelPtr → Prop
  | none => ∀ i, ladder.slotAt i = none
  | some p => (∃ i, ladder.slotAt i = some p) ∧ ∃ l, levels.read p = some l ∧
    ∀ i q m, ladder.slotAt i = some q → levels.read q = some m →
      q = p ∨ betterTick ladder.side (ladder.tickOf l) (ladder.tickOf m)

theorem Populated.bestStored_none (h : Populated ladder levels)
    (hnone : ∀ k, k < ladder.capacity → ladder.atOffset k = none) : BestStored ladder levels none := by
  intro i
  cases hp : ladder.slotAt i with
  | none => rfl
  | some p =>
    obtain ⟨l, hl, -⟩ := h.level i p hp
    obtain ⟨-, hlt, hat⟩ := h.atOffset hp hl
    exact absurd (hat.symm.trans (hnone _ hlt)) nofun

theorem Populated.bestStored_some (h : Populated ladder levels) {k : ℕ} {p : LevelPtr}
    (hk : k < ladder.capacity) (hp : ladder.atOffset k = some p)
    (hbest : ∀ j, j < ladder.capacity → ladder.atOffset j ≠ none → j ≠ k →
      betterTick ladder.side k j) : BestStored ladder levels (some p) := by
  obtain ⟨l, hl, htick⟩ := h.tick_eq hk hp
  refine ⟨⟨_, hp⟩, l, hl, fun i q m hq hm => ?_⟩
  obtain ⟨hbase, hlt, hat⟩ := h.atOffset hq hm
  by_cases hsame : (ladder.tickOf m - ladder.baseTick).toNat = k
  · rw [hsame, hp] at hat
    exact .inl (Option.some.inj hat).symm
  · have hbetter := hbest _ hlt (by rw [hat]; exact Option.some_ne_none q) hsame
    right
    rw [htick]
    revert hbetter
    cases ladder.side <;> simp only [betterTick] <;> omega

/-- What the best offset holds is the level with the best tick. -/
theorem Populated.bestStored (h : Populated ladder levels) {r : Option LevelPtr}
    (hr : ladder.BestOffset r) : BestStored ladder levels r := by
  unfold BestOffset at hr
  cases r with
  | none =>
    refine h.bestStored_none fun k hk => ?_
    cases hside : ladder.side <;> rw [hside] at hr <;> exact hr k (Nat.zero_le k) hk
  | some p =>
    cases hside : ladder.side with
    | buy =>
      rw [hside] at hr
      obtain ⟨k, -, hk, hp, hafter⟩ := hr
      refine h.bestStored_some hk hp fun j hj hne hjk => ?_
      rw [hside]
      have hle := not_lt.1 fun hkj => hne (hafter j hkj hj)
      exact Int.ofNat_lt.2 (by omega)
    | sell =>
      rw [hside] at hr
      obtain ⟨k, -, hk, hp, hbefore⟩ := hr
      refine h.bestStored_some hk hp fun j hj hne hjk => ?_
      rw [hside]
      have hle := not_lt.1 fun hkj => hne (hbefore j (Nat.zero_le j) hkj)
      exact Int.ofNat_lt.2 (by omega)

/-- After every run of a ladder whose head is anywhere, the best level is null if and only if no
slot holds a level, else it is the stored level with the greatest tick of a buy side or the least
one of a sell side, and asking for it changes nothing. -/
theorem best_level_of_ladder (side : Side) (tickSizeTicks baseTick : ℤ) {capacity headIndex : ℕ}
    (hhead : headIndex < capacity) (ops : List Op) {ladder : RingPriceLadder}
    {levels : Heap PriceLevel}
    (hrun : ops.foldl Op.run (emptyAt side tickSizeTicks baseTick capacity headIndex, Heap.empty) =
      (ladder, levels)) :
    (ladder.bestLevel.1 = none ↔ ∀ i, ladder.slotAt i = none) ∧
    (∀ p, ladder.bestLevel.1 = some p →
      (∃ i, ladder.slotAt i = some p) ∧ ∃ l, levels.read p = some l ∧
        ∀ i q m, ladder.slotAt i = some q → levels.read q = some m →
          q = p ∨ betterTick side (ladder.tickOf l) (ladder.tickOf m)) ∧
    ladder.bestLevel.2 = ladder := by
  obtain ⟨hpopulated, hwindow⟩ :=
    (populated_emptyAt side tickSizeTicks baseTick hhead).run ops
  rw [hrun] at hpopulated hwindow
  obtain ⟨hsame, hbest⟩ := hpopulated.wellFormed.bestLevel_spec
  have hstored := hpopulated.bestStored hbest
  have hside : ladder.side = side := hwindow.side
  refine ⟨⟨fun hnone => ?_, fun hnone => ?_⟩, fun p hp => ?_, hsame⟩
  · rw [hnone] at hstored
    exact hstored
  · cases hp : ladder.bestLevel.1 with
    | none => rfl
    | some p =>
      rw [hp] at hstored
      obtain ⟨⟨i, hi⟩, -⟩ := hstored
      exact absurd ((hnone i).symm.trans hi) nofun
  · rw [hp] at hstored
    rw [← hside]
    exact hstored

/-- Levels on both sides of the wrap point and of a word boundary; the first one goes again. -/
def sampleLadder : RingPriceLadder × Heap PriceLevel :=
  [Op.getOrCreateLevel ⟨100, by decide⟩, .getOrCreateLevel ⟨106, by decide⟩,
    .getOrCreateLevel ⟨169, by decide⟩,
    .removeLevelIfEmpty ⟨100, by decide⟩].foldl Op.run (emptyAt .sell 1 100 70 65, Heap.empty)

theorem best_level_of_ladder_sample :
    (sampleLadder.1.bestLevel.1 = none ↔ ∀ i, sampleLadder.1.slotAt i = none) ∧
    (∀ p, sampleLadder.1.bestLevel.1 = some p →
      (∃ i, sampleLadder.1.slotAt i = some p) ∧ ∃ l, sampleLadder.2.read p = some l ∧
        ∀ i q m, sampleLadder.1.slotAt i = some q → sampleLadder.2.read q = some m →
          q = p ∨ betterTick .sell (sampleLadder.1.tickOf l) (sampleLadder.1.tickOf m)) ∧
    sampleLadder.1.bestLevel.2 = sampleLadder.1 :=
  best_level_of_ladder .sell 1 100 (show 65 < 70 by decide) _ rfl

end Best

end RingPriceLadder
end PerpexEngine
