import PerpexEngine.Core.QueueConservation
import PerpexEngine.Core.PriceTimeBook
import PerpexEngine.Lib.Ranked

/-! Level totals: they count the resting lots modulo the machine word in every run, and exactly
while no level outgrows it; no order is detached as long as that holds. -/
namespace PerpexEngine

/-- The lots left in a list of orders. -/
def lotsOf (orders : List OrderSnapshot) : ℕ := (orders.map (·.remainingQuantity.lots)).sum

@[simp] theorem lotsOf_nil : lotsOf [] = 0 := rfl

@[simp] theorem lotsOf_cons (o : OrderSnapshot) (rs : List OrderSnapshot) :
    lotsOf (o :: rs) = o.remainingQuantity.lots + lotsOf rs := by
  simp [lotsOf]

@[simp] theorem lotsOf_append (xs ys : List OrderSnapshot) :
    lotsOf (xs ++ ys) = lotsOf xs + lotsOf ys := by
  simp [lotsOf]

theorem lotsOf_eq_zero {rs : List OrderSnapshot} (hpos : ∀ r ∈ rs, 0 < r.remainingQuantity.lots)
    (h : lotsOf rs = 0) : rs = [] := by
  cases rs with
  | nil => rfl
  | cons r rs =>
    have hr := hpos r List.mem_cons_self
    rw [lotsOf_cons] at h
    omega

/-- Dropping the one order with an id drops its lots. -/
theorem lotsOf_filter {o : OrderSnapshot} {rs : List OrderSnapshot} (h : o ∈ rs)
    (hids : (rs.map (·.orderId)).Nodup) :
    lotsOf (rs.filter fun r => r.orderId ≠ o.orderId) + o.remainingQuantity.lots = lotsOf rs := by
  induction rs with
  | nil => cases h
  | cons r rs ih =>
    rw [List.map_cons, List.nodup_cons] at hids
    rcases List.mem_cons.1 h with rfl | h
    · have hrest : rs.filter (fun r => decide (r.orderId ≠ o.orderId)) = rs :=
        List.filter_eq_self.2 fun x hx => decide_eq_true fun heq =>
          hids.1 (heq ▸ List.mem_map_of_mem hx)
      rw [List.filter_cons_of_neg (by simp), hrest, lotsOf_cons, Nat.add_comm]
    · have hne : r.orderId ≠ o.orderId := fun heq => hids.1 (heq ▸ List.mem_map_of_mem h)
      rw [List.filter_cons_of_pos (by simpa using hne), lotsOf_cons, lotsOf_cons, ← ih h hids.2]
      omega

/-- Less than the remainder can be taken off before or after taking it. -/
theorem sub_mod_of_lt {n m f : ℕ} (h : f < n % m) : (n - f) % m = n % m - f := by
  rcases Nat.eq_zero_or_pos m with rfl | hm
  · rw [Nat.mod_zero, Nat.mod_zero]
  · have hn := Nat.mod_add_div n m
    have hlt := Nat.mod_lt n hm
    have heq : n - f = n % m - f + m * (n / m) := by omega
    rw [heq, Nat.add_mul_mod_self_left, Nat.mod_eq_of_lt (by omega)]

namespace QueueBook

/-- Level totals count modulo the machine word. -/
def Totals (book : QueueBook) : Prop :=
  ∀ side, ∀ l ∈ book.levels side, l.totalQuantity.lots = lotsOf l.orders % 2 ^ 64

/-- Every order is in a level, and no level outgrows the machine word. -/
structure Whole (book : QueueBook) : Prop where
  detached : book.detached = []
  fits : ∀ side, ∀ l ∈ book.levels side, lotsOf l.orders < 2 ^ 64

/-- Levels best price first, none empty, each at the price of its orders. -/
structure Sorted (book : QueueBook) : Prop where
  ranked : ∀ side, Ranked (fun l : LevelQueue => side.rank l.price) (book.levels side)
  nonempty : ∀ side, ∀ l ∈ book.levels side, l.orders ≠ []
  prices : ∀ side, ∀ l ∈ book.levels side, ∀ o ∈ l.orders, o.price = l.price

variable {book : QueueBook} {side : Side} {l : LevelQueue} {levels : List LevelQueue}

theorem Totals.new (config : SymbolConfig) : (QueueBook.new config).Totals := by
  intro side l hl
  cases side <;> cases hl

theorem Whole.new (config : SymbolConfig) : (QueueBook.new config).Whole :=
  ⟨rfl, fun side l hl => by cases side <;> cases hl⟩

/-- The levels of the given side change, those of the other stay. -/
theorem forall_levels_set {P : LevelQueue → Prop} {detached : List OrderSnapshot}
    (hset : ∀ l ∈ levels, P l) (hother : ∀ l ∈ book.levels side.opposite, P l) (s : Side) :
    ∀ l ∈ ({ book.setLevels side levels with detached := detached } : QueueBook).levels s, P l := by
  intro l hl
  rcases eq_or_eq_opposite s side with rfl | rfl
  · have hl' : l ∈ levels := by cases s <;> exact hl
    exact hset l hl'
  · have hl' : l ∈ book.levels side.opposite := by cases side <;> exact hl
    exact hother l hl'

theorem mem_settleFront {l : LevelQueue} {levels : List LevelQueue} {x : LevelQueue}
    (h : x ∈ (settleFront l levels).1) :
    x ∈ levels ∨ (x = l ∧ l.orders ≠ [] ∧ 0 < l.totalQuantity.lots) := by
  rw [settleFront] at h
  split_ifs at h with hdone
  · exact Or.inl h
  · rcases List.mem_cons.1 h with rfl | h
    · rw [Bool.or_eq_true, not_or, Bool.not_eq_true, Bool.not_eq_true, Quantity.isZero_eq_false,
        List.isEmpty_eq_false_iff] at hdone
      exact Or.inr ⟨rfl, hdone⟩
    · exact Or.inl h

/-- A level that keeps its orders except for `f` lots of them keeps its total right. -/
theorem total_decrease {l l' : LevelQueue} {f : Quantity}
    (h : l.totalQuantity.lots = lotsOf l.orders % 2 ^ 64)
    (htotal : l'.totalQuantity = l.totalQuantity.decrease f)
    (hlots : lotsOf l'.orders + f.lots = lotsOf l.orders) (hpos : 0 < l'.totalQuantity.lots) :
    l'.totalQuantity.lots = lotsOf l'.orders % 2 ^ 64 := by
  rw [htotal, Quantity.lots_decrease, h] at hpos ⊢
  have hsub : lotsOf l'.orders = lotsOf l.orders - f.lots := by omega
  rw [hsub, sub_mod_of_lt (by omega)]

section Fill
variable {s s' : MatchState} {events : List EngineEvent}

theorem lotsOf_afterFill {maker : OrderSnapshot} {rest : List OrderSnapshot} {f : Quantity}
    (hl : l.orders = maker :: rest) (hf : f.lots ≤ maker.remainingQuantity.lots) :
    lotsOf (afterFill l maker rest f).orders + f.lots = lotsOf l.orders := by
  have hlots := reduce_lots hf
  rw [hl, lotsOf_cons, afterFill]
  dsimp only
  split_ifs with hfilled
  · rw [isFilled_iff] at hfilled
    omega
  · rw [lotsOf_cons]
    omega

theorem Totals.matchStep (h : s.book.Totals) (hstep : matchStep s = some (events, s')) :
    s'.book.Totals := by
  obtain ⟨l, levels, maker, rest, hlevels, hl, -, -, -, hbook, -⟩ := matchStep_cases hstep
  have hside : ∀ x ∈ l :: levels, x.totalQuantity.lots = lotsOf x.orders % 2 ^ 64 := by
    rw [← hlevels]
    exact h _
  rw [hbook]
  apply forall_levels_set
  · intro x hx
    rcases mem_settleFront hx with hx | ⟨rfl, -, hpos⟩
    · exact hside x (List.mem_cons_of_mem _ hx)
    · exact total_decrease (hside l List.mem_cons_self) rfl
        (lotsOf_afterFill hl (Quantity.min_lots_le_right _ _)) hpos
  · exact h _

/-- Without overflow a settled level is dropped only when it has no orders left. -/
theorem settleFront_dropped (hpos : ∀ r ∈ l.orders, 0 < r.remainingQuantity.lots)
    (htotal : l.totalQuantity.lots = lotsOf l.orders) : (settleFront l levels).2 = [] := by
  rw [settleFront]
  split_ifs with hdone
  · rw [Bool.or_eq_true, List.isEmpty_iff, Quantity.isZero_iff, htotal] at hdone
    rcases hdone with hdone | hdone
    · exact hdone
    · exact lotsOf_eq_zero hpos hdone
  · rfl

theorem Whole.total (h : book.Whole) (ht : book.Totals) (hl : l ∈ book.levels side) :
    l.totalQuantity.lots = lotsOf l.orders := by
  rw [ht side l hl, Nat.mod_eq_of_lt (h.fits side l hl)]

/-- A level's orders are among the active orders. -/
theorem mem_active_of_level (hl : l ∈ book.levels side) {r : OrderSnapshot} (hr : r ∈ l.orders) :
    r ∈ book.activeOrders :=
  (mem_activeOrders side).2 (Or.inl (mem_ordersOf.2 ⟨l, hl, hr⟩))

theorem Whole.matchStep (h : s.book.Whole) (ht : s.book.Totals) (hok : s.book.Ok)
    (hstep : matchStep s = some (events, s')) : s'.book.Whole := by
  have hok' := hok.matchStep hstep
  obtain ⟨l, levels, maker, rest, hlevels, hl, -, -, -, hbook, -⟩ := matchStep_cases hstep
  have hmem : l ∈ s.book.levels s.incoming.side.opposite := by
    rw [hlevels]
    exact List.mem_cons_self
  have hle := Quantity.min_lots_le_right s.incoming.remainingQuantity maker.remainingQuantity
  generalize s.incoming.remainingQuantity.min maker.remainingQuantity = f at hle hbook
  have hlots := lotsOf_afterFill hl hle
  have hfit := h.fits _ l hmem
  have htotal : (afterFill l maker rest f).totalQuantity.lots =
      lotsOf (afterFill l maker rest f).orders := by
    change (l.totalQuantity.decrease f).lots = _
    rw [Quantity.lots_decrease, h.total ht hmem]
    omega
  have hdropped : (settleFront (afterFill l maker rest f) levels).2 = [] := by
    refine settleFront_dropped (fun r hr => ?_) htotal
    have hpos : ∀ x ∈ l.orders, 0 < x.remainingQuantity.lots := fun x hx =>
      hok.positive x (mem_active_of_level hmem hx)
    rw [hl] at hpos
    simp only [afterFill] at hr
    split_ifs at hr with hfilled
    · exact hpos r (List.mem_cons_of_mem _ hr)
    · rcases List.mem_cons.1 hr with rfl | hr
      · rwa [Bool.not_eq_true, isFilled_eq_false] at hfilled
      · exact hpos r (List.mem_cons_of_mem _ hr)
  rw [hbook]
  constructor
  · change s.book.detached ++ (settleFront _ _).2 = []
    rw [hdropped, h.detached]
    rfl
  · apply forall_levels_set
    · intro x hx
      rcases mem_settleFront hx with hx | ⟨rfl, -, -⟩
      · refine h.fits s.incoming.side.opposite x ?_
        rw [hlevels]
        exact List.mem_cons_of_mem _ hx
      · omega
    · exact h.fits _

theorem Sorted.matchStep (h : s.book.Sorted) (hstep : matchStep s = some (events, s')) :
    s'.book.Sorted := by
  obtain ⟨l, levels, maker, rest, hlevels, hl, -, -, -, hbook, -⟩ := matchStep_cases hstep
  generalize s.incoming.remainingQuantity.min maker.remainingQuantity = f at hbook
  have hranked := h.ranked s.incoming.side.opposite
  have hnonempty := h.nonempty s.incoming.side.opposite
  have hprices := h.prices s.incoming.side.opposite
  generalize hside : s.incoming.side.opposite = side at *
  rw [hlevels] at hranked hnonempty hprices
  rw [hbook]
  refine ⟨forall_side side ?_ ?_, forall_levels_set ?_ (h.nonempty _),
    forall_levels_set (P := fun x => ∀ o ∈ x.orders, o.price = x.price) ?_ (h.prices _)⟩
  · rw [levels_putFront, settleFront]
    split_ifs
    · exact hranked.tail
    · exact List.pairwise_cons.2 ⟨fun x hx => hranked.head_lt hx, hranked.tail⟩
  · have hother : (s.book.putFront side (afterFill l maker rest f) levels).levels side.opposite =
        s.book.levels side.opposite := by cases side <;> rfl
    rw [hother]
    exact h.ranked _
  · intro x hx
    rcases mem_settleFront hx with hx | ⟨rfl, hne, -⟩
    · exact hnonempty x (List.mem_cons_of_mem _ hx)
    · exact hne
  · intro x hx o ho
    rcases mem_settleFront hx with hx | ⟨rfl, -, -⟩
    · exact hprices x (List.mem_cons_of_mem _ hx) o ho
    · have hl' := hprices l List.mem_cons_self
      rw [hl] at hl'
      simp only [afterFill] at ho
      split_ifs at ho
      · exact hl' o (List.mem_cons_of_mem _ ho)
      · rcases List.mem_cons.1 ho with rfl | ho
        · exact hl' maker List.mem_cons_self
        · exact hl' o (List.mem_cons_of_mem _ ho)

end Fill

section Rest

theorem insertOrder_totals {x : OrderSnapshot} {levels : List LevelQueue}
    (h : ∀ l ∈ levels, l.totalQuantity.lots = lotsOf l.orders % 2 ^ 64) :
    ∀ l ∈ insertOrder side x levels, l.totalQuantity.lots = lotsOf l.orders % 2 ^ 64 := by
  induction levels with
  | nil =>
    intro l hl
    rw [insertOrder, List.mem_singleton] at hl
    simp [hl, Quantity.lots_addLots]
  | cons a levels ih =>
    have hrest := fun l hl => h l (List.mem_cons_of_mem a hl)
    intro l hl
    rw [insertOrder] at hl
    split_ifs at hl
    · rcases List.mem_cons.1 hl with rfl | hl
      · simp [Quantity.lots_addLots]
      · exact h l hl
    · rcases List.mem_cons.1 hl with rfl | hl
      · simp [Quantity.lots_addLots, h a List.mem_cons_self]
      · exact hrest l hl
    · rcases List.mem_cons.1 hl with rfl | hl
      · exact h l List.mem_cons_self
      · exact ih hrest l hl

theorem restOrder_eq (book : QueueBook) (x : OrderSnapshot) : book.restOrder x =
    { book.setLevels x.side (insertOrder x.side x (book.levels x.side)) with
      detached := book.detached } := by
  rw [QueueBook.restOrder]
  cases x.side <;> rfl

theorem Totals.restOrder (h : book.Totals) (x : OrderSnapshot) : (book.restOrder x).Totals := by
  rw [restOrder_eq]
  exact forall_levels_set (insertOrder_totals (h x.side)) (h _)

end Rest

section Release
variable {x : OrderSnapshot}

theorem mem_takeOrder {levels : List LevelQueue} {y : LevelQueue}
    (h : y ∈ (takeOrder x levels).1) : y ∈ levels ∨
      ∃ l ∈ levels, l.hasOrder x.orderId = true ∧ y = l.without x ∧ 0 < y.totalQuantity.lots := by
  induction levels with
  | nil => cases h
  | cons l levels ih =>
    rw [takeOrder] at h
    split_ifs at h with hhas
    · rcases mem_settleFront h with h | ⟨rfl, -, hpos⟩
      · exact Or.inl (List.mem_cons_of_mem _ h)
      · exact Or.inr ⟨l, List.mem_cons_self, hhas, rfl, hpos⟩
    · rcases List.mem_cons.1 h with rfl | h
      · exact Or.inl List.mem_cons_self
      · rcases ih h with h | ⟨l', hl', hrest⟩
        · exact Or.inl (List.mem_cons_of_mem _ h)
        · exact Or.inr ⟨l', List.mem_cons_of_mem _ hl', hrest⟩

/-- A level that holds an order's id holds the order. -/
theorem Keyed.mem_of_hasOrder (h : book.Keyed) (hx : x ∈ book.activeOrders)
    (hl : l ∈ book.levels side) (hhas : l.hasOrder x.orderId = true) : x ∈ l.orders := by
  obtain ⟨r, hr, hid⟩ := hasOrder_eq_true.1 hhas
  rwa [h.eq_of_id (mem_active_of_level hl hr) hx hid] at hr

theorem Keyed.level_ids (h : book.Keyed) (hl : l ∈ book.levels side) :
    (l.orders.map (·.orderId)).Nodup := by
  have hside := ((activeOrders_perm book side).map (·.orderId)).nodup_iff.1 h.ids
  rw [List.map_append] at hside
  have hsub : l.orders.Sublist (ordersOf (book.levels side)) :=
    List.sublist_flatten_of_mem (List.mem_map_of_mem hl)
  exact (List.nodup_append.1 hside).1.sublist (hsub.map _)

theorem lotsOf_without (h : book.Keyed) (hx : x ∈ book.activeOrders) (hl : l ∈ book.levels side)
    (hhas : l.hasOrder x.orderId = true) :
    lotsOf (l.without x).orders + x.remainingQuantity.lots = lotsOf l.orders :=
  lotsOf_filter (h.mem_of_hasOrder hx hl hhas) (h.level_ids hl)

theorem Totals.releaseOrder (h : book.Totals) (hk : book.Keyed) (hx : x ∈ book.activeOrders) :
    (book.releaseOrder x).Totals := by
  intro side
  apply forall_levels_set
  · intro y hy
    rcases mem_takeOrder hy with hy | ⟨l, hl, hhas, rfl, hpos⟩
    · exact h _ y hy
    · exact total_decrease (h _ l hl) rfl (lotsOf_without hk hx hl hhas) hpos
  · exact h _

theorem takeOrder_dropped {levels : List LevelQueue} : (takeOrder x levels).2 = [] ∨
    ∃ l ∈ levels, ∃ rest, l.hasOrder x.orderId = true ∧
      (takeOrder x levels).2 = (settleFront (l.without x) rest).2 := by
  induction levels with
  | nil => exact Or.inl rfl
  | cons l levels ih =>
    rw [takeOrder]
    split_ifs with hhas
    · exact Or.inr ⟨l, List.mem_cons_self, levels, hhas, rfl⟩
    · rcases ih with ih | ⟨l', hl', hrest⟩
      · exact Or.inl ih
      · exact Or.inr ⟨l', List.mem_cons_of_mem _ hl', hrest⟩

/-- Without overflow nothing but the released order leaves the levels. -/
theorem Whole.takeOrder_dropped (h : book.Whole) (ht : book.Totals) (hok : book.Ok)
    (hx : x ∈ book.activeOrders) : (takeOrder x (book.levels x.side)).2 = [] := by
  rcases @QueueBook.takeOrder_dropped x (book.levels x.side) with
    hnil | ⟨l, hl, rest, hhas, hdrop⟩
  · exact hnil
  · rw [hdrop]
    have hlots := lotsOf_without hok.toKeyed hx hl hhas
    refine settleFront_dropped (fun r hr => ?_) ?_
    · exact hok.positive r (mem_active_of_level hl (List.mem_of_mem_filter hr))
    · change (l.totalQuantity.decrease x.remainingQuantity).lots = _
      rw [Quantity.lots_decrease, h.total ht hl]
      omega

theorem Whole.releaseOrder (h : book.Whole) (ht : book.Totals) (hok : book.Ok)
    (hx : x ∈ book.activeOrders) : (book.releaseOrder x).Whole := by
  have hdropped := h.takeOrder_dropped ht hok hx
  constructor
  · change book.detached.filter _ ++ (takeOrder x (book.levels x.side)).2 = []
    rw [hdropped, h.detached]
    rfl
  · intro side
    apply forall_levels_set
    · intro y hy
      rcases mem_takeOrder hy with hy | ⟨l, hl, hhas, rfl, hpos⟩
      · exact h.fits _ y hy
      · have hlots := lotsOf_without hok.toKeyed hx hl hhas
        have hfit := h.fits _ l hl
        omega
    · exact h.fits _

end Release

section Commands
variable {command : PlaceOrderCommand} {g : SequenceGenerator}

theorem Totals.processPlace (h : book.Totals) (command : PlaceOrderCommand)
    (g : SequenceGenerator) : (book.processPlace command g).2.1.Totals := by
  rw [QueueBook.processPlace]
  cases book.placeRejection command with
  | some reason => exact h
  | none =>
    have hloop : ∀ n, (QueueBook.matchLoop n
        ⟨book, incomingOrder command g.nextSequence, g.nextEvent⟩).2.book.Totals := fun n =>
      matchLoop_induction (P := fun s => s.book.Totals) (fun _ _ _ h hs => h.matchStep hs) n _ h
    dsimp only [matchIncomingOrder]
    split_ifs
    · exact (hloop _).restOrder _
    · exact hloop _

theorem Totals.processCancel (h : book.Totals) (hk : book.Keyed) (command : CancelOrderCommand)
    (g : SequenceGenerator) : (book.processCancel command g).2.1.Totals := by
  simp only [QueueBook.processCancel]
  cases hf : (book.lookup (book.cancelTarget command)).filter
      fun o => o.userId = command.userId with
  | none => exact h
  | some o =>
    have hlookup := (Option.filter_eq_some_iff.1 hf).1
    exact h.releaseOrder hk (hk.lookup_eq_some.1 hlookup).1

end Commands

end QueueBook
end PerpexEngine
