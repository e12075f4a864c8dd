import PerpexEngine.Core.OrderLife

/-! Every order a core accepts leads one life, and while it rests its remaining quantity is what its
fills have left of it. -/
namespace PerpexEngine
open OrderLife

/-- The life an order stands at between two events about it. -/
def OrderSnapshot.life (o : OrderSnapshot) : OrderLife :=
  if o.isFilled then .closed o.originalQuantity.lots o.originalQuantity.lots
  else .live o.originalQuantity.lots o.remainingQuantity.lots

/-- No fill report is due and nothing is wrong. -/
def OrderLife.Settled : OrderLife → Prop
  | .spent _ => False
  | .broken => False
  | _ => True

theorem OrderSnapshot.settled_life (o : OrderSnapshot) : o.life.Settled := by
  unfold OrderSnapshot.life
  split_ifs <;> trivial

section Fill
variable {id : OrderId} {maker incoming o : OrderSnapshot} {f total : Quantity}

theorem OrderLife.step_status (hne : o.orderId ≠ id) (life : OrderLife) (g : SequenceGenerator) :
    step id life (fillStatusEvent g o) = life := by
  unfold fillStatusEvent
  split_ifs <;> simp only [step, hne, ↓reduceIte]

/-- The report after a fill settles the life the trade left. -/
theorem OrderLife.step_trade_status (hle : f.lots ≤ o.remainingQuantity.lots)
    (hlive : o.isFilled = false) (g : SequenceGenerator) :
    step o.orderId (o.life.trade f.lots) (fillStatusEvent g (o.reduce f)) = (o.reduce f).life := by
  have hlots : (o.reduce f).remainingQuantity.lots = o.remainingQuantity.lots - f.lots :=
    QueueBook.reduce_lots hle
  have hid : (o.reduce f).orderId = o.orderId := rfl
  have horiginal : (o.reduce f).originalQuantity = o.originalQuantity := rfl
  unfold OrderSnapshot.life fillStatusEvent
  rw [hlive, horiginal]
  by_cases hfilled : (o.reduce f).isFilled = true
  · have heq : f.lots = o.remainingQuantity.lots := by
      rw [QueueBook.isFilled_iff, hlots] at hfilled
      omega
    simp only [hfilled, trade, heq, lt_irrefl, step, hid, ↓reduceIte, Bool.false_eq_true]
  · have hlt : f.lots < o.remainingQuantity.lots := by
      rw [QueueBook.isFilled_iff, hlots] at hfilled
      omega
    simp only [hfilled, trade, hlt, step, hid, hlots, ↓reduceIte, Bool.false_eq_true]

/-- The events of one fill in the life of an order id. -/
theorem OrderLife.foldl_fillEvents (g : SequenceGenerator) (symbolId : SymbolId)
    (hne : maker.orderId ≠ incoming.orderId)
    (hmaker : f.lots ≤ maker.remainingQuantity.lots) (hlive : maker.isFilled = false)
    (hincoming : f.lots ≤ incoming.remainingQuantity.lots) (hopen : incoming.isFilled = false)
    (life : OrderLife) :
    (id = maker.orderId → life = maker.life →
      (fillEvents g symbolId maker incoming f total).1.foldl (step id) life =
        (maker.reduce f).life) ∧
    (id = incoming.orderId → life = incoming.life →
      (fillEvents g symbolId maker incoming f total).1.foldl (step id) life =
        (incoming.reduce f).life) ∧
    (id ≠ maker.orderId → id ≠ incoming.orderId →
      (fillEvents g symbolId maker incoming f total).1.foldl (step id) life = life) := by
  refine ⟨?_, ?_, ?_⟩
  · rintro rfl rfl
    have hother : (incoming.reduce f).orderId ≠ maker.orderId := hne.symm
    simp only [fillEvents, List.foldl_cons, List.foldl_nil, step_trade, true_or, ↓reduceIte,
      step_trade_status hmaker hlive, step_status hother]
    rfl
  · rintro rfl rfl
    have hother : (maker.reduce f).orderId ≠ incoming.orderId := hne
    simp only [fillEvents, List.foldl_cons, List.foldl_nil, step_trade, or_true, ↓reduceIte,
      step_status hother, step_trade_status hincoming hopen]
    rfl
  · intro hm hi
    have hm' : (maker.reduce f).orderId ≠ id := hm.symm
    have hi' : (incoming.reduce f).orderId ≠ id := hi.symm
    simp only [fillEvents, List.foldl_cons, List.foldl_nil, step_trade, hm.symm, hi.symm, or_self,
      ↓reduceIte, step_status hm', step_status hi']
    rfl

end Fill

namespace QueueBook
variable {s s' : MatchState} {events : List EngineEvent}

/-- One round of matching, seen from the active orders. -/
theorem matchStep_active (h : matchStep s = some (events, s')) :
    ∃ maker others total, s.book.activeOrders.Perm (maker :: others) ∧
      maker ∈ ordersOf (s.book.levels s.incoming.side.opposite) ∧
      s'.book.activeOrders.Perm ((if (maker.reduce (s.incoming.remainingQuantity.min
        maker.remainingQuantity)).isFilled then [] else [maker.reduce
          (s.incoming.remainingQuantity.min maker.remainingQuantity)]) ++ others) ∧
      s.incoming.isFilled = false ∧
      (fillEvents s.sequenceGenerator s.book.symbolConfig.symbolId maker s.incoming
        (s.incoming.remainingQuantity.min maker.remainingQuantity) total) =
          (events, s'.sequenceGenerator) ∧
      s'.incoming =
        s.incoming.reduce (s.incoming.remainingQuantity.min maker.remainingQuantity) := by
  obtain ⟨l, levels, maker, queue, hlevels, horders, hopen, -, hevents, hbook, hinc⟩ :=
    matchStep_cases h
  have hafter := putFront_afterFill_perm s.book s.incoming.side.opposite l levels maker queue
    (s.incoming.remainingQuantity.min maker.remainingQuantity)
  rw [← hbook] at hafter
  refine ⟨maker, _, _, activeOrders_front hlevels horders, ?_, hafter, hopen, hevents, hinc⟩
  rw [hlevels, ordersOf_cons, horders]
  exact List.mem_cons_self

/-- In the middle of a match every active order and the incoming one stand at their lives. -/
structure Lives (s : MatchState) (history : List EngineEvent) : Prop where
  settled : ∀ id, (after id history).Settled
  resting : ∀ r ∈ s.book.activeOrders, after r.orderId history = r.life
  incoming : after s.incoming.orderId history = s.incoming.life
  fresh : ∀ r ∈ s.book.activeOrders, r.orderId ≠ s.incoming.orderId

theorem Lives.matchStep {history : List EngineEvent} (h : Lives s history) (hok : s.book.Ok)
    (hstep : matchStep s = some (events, s')) :
    Lives s' (history ++ events) ∧ ∀ id, id ≠ s.incoming.orderId →
      (∀ r ∈ s.book.activeOrders, r.orderId ≠ id) →
        after id (history ++ events) = after id history := by
  obtain ⟨maker, others, total, hbefore, -, hafter, hopen, hevents, hinc⟩ := matchStep_active hstep
  have hmem := hbefore.mem_iff.2 List.mem_cons_self
  have hmakerPos := hok.positive maker hmem
  have hne := h.fresh maker hmem
  have hids := (hbefore.map (·.orderId)).nodup_iff.1 hok.ids
  rw [List.map_cons, List.nodup_cons] at hids
  have hfill := fun id => @OrderLife.foldl_fillEvents id maker s.incoming _ total
    s.sequenceGenerator s.book.symbolConfig.symbolId hne
    (Quantity.min_lots_le_right _ _) (isFilled_eq_false.2 hmakerPos)
    (Quantity.min_lots_le_left _ _) hopen (after id history)
  generalize s.incoming.remainingQuantity.min maker.remainingQuantity = f at *
  rw [hevents] at hfill
  have hother : ∀ id, id ≠ maker.orderId → id ≠ s.incoming.orderId →
      after id (history ++ events) = after id history := by
    intro id hm hi
    rw [after_append]
    exact (hfill id).2.2 hm hi
  have hmaker : after maker.orderId (history ++ events) = (maker.reduce f).life := by
    rw [after_append]
    exact (hfill maker.orderId).1 rfl (h.resting maker hmem)
  have hincoming : after s.incoming.orderId (history ++ events) = (s.incoming.reduce f).life := by
    rw [after_append]
    exact (hfill s.incoming.orderId).2.1 rfl h.incoming
  refine ⟨⟨fun id => ?_, fun r hr => ?_, ?_, fun r hr => ?_⟩, fun id hi hr => ?_⟩
  · by_cases hm : id = maker.orderId
    · rw [hm, hmaker]
      exact OrderSnapshot.settled_life _
    · by_cases hi : id = s.incoming.orderId
      · rw [hi, hincoming]
        exact OrderSnapshot.settled_life _
      · rw [hother id hm hi]
        exact h.settled id
  · rcases List.mem_append.1 (hafter.mem_iff.1 hr) with hr | hr
    · split_ifs at hr
      · cases hr
      · rw [List.mem_singleton.1 hr]
        exact hmaker
    · have hr' := hbefore.mem_iff.2 (List.mem_cons_of_mem _ hr)
      rw [hother r.orderId (fun heq => hids.1 (heq ▸ List.mem_map_of_mem hr)) (h.fresh r hr')]
      exact h.resting r hr'
  · rw [hinc]
    exact hincoming
  · rw [hinc]
    rcases List.mem_append.1 (hafter.mem_iff.1 hr) with hr | hr
    · split_ifs at hr
      · cases hr
      · rw [List.mem_singleton.1 hr]
        exact hne
    · exact h.fresh r (hbefore.mem_iff.2 (List.mem_cons_of_mem _ hr))
  · exact hother id (hr maker hmem).symm hi

/-- Matching to the end. -/
theorem Lives.matchLoop {history : List EngineEvent} (n : ℕ) (h : Lives s history)
    (hok : s.book.Ok) : Lives (matchLoop n s).2 (history ++ (matchLoop n s).1) ∧
      ∀ id, id ≠ s.incoming.orderId → (∀ r ∈ s.book.activeOrders, r.orderId ≠ id) →
        after id (history ++ (matchLoop n s).1) = after id history := by
  induction n generalizing s history with
  | zero =>
    simp only [QueueBook.matchLoop, List.append_nil]
    exact ⟨h, fun _ _ _ => trivial⟩
  | succ n ih =>
    cases hs : QueueBook.matchStep s with
    | none =>
      rw [matchLoop_of_none hs, List.append_nil]
      exact ⟨h, fun _ _ _ => rfl⟩
    | some r =>
      obtain ⟨events, t⟩ := r
      obtain ⟨hnext, hother⟩ := h.matchStep hok hs
      obtain ⟨hend, hrest⟩ := ih hnext (hok.matchStep hs)
      rw [matchLoop_of_some hs, ← List.append_assoc]
      refine ⟨hend, fun id hi hr => ?_⟩
      have hsub := matchStep_subset (·.orderId) (fun _ _ => rfl) hs
      obtain ⟨_, _, _, -, -, -, -, -, hinc⟩ := matchStep_active hs
      rw [hrest id (by rw [hinc]; exact hi) fun r hr' heq => ?_, hother id hi hr]
      obtain ⟨r', hmem, hid⟩ := List.mem_map.1 (hsub _ (List.mem_map_of_mem hr'))
      exact hr r' hmem (hid.trans heq)

/-- What a command on one book does to the lives, where `placed` are the ids it brought in. -/
structure LivesOn (placed : OrderId → Prop) (book book' : QueueBook)
    (history events : List EngineEvent) : Prop where
  settled : ∀ id, (after id (history ++ events)).Settled
  resting : ∀ r ∈ book'.activeOrders, after r.orderId (history ++ events) = r.life
  others : ∀ id, ¬placed id → (∀ r ∈ book.activeOrders, r.orderId ≠ id) →
    after id (history ++ events) = after id history
  ids : ∀ r ∈ book'.activeOrders, placed r.orderId ∨ ∃ a ∈ book.activeOrders, a.orderId = r.orderId

variable {book : QueueBook} {history : List EngineEvent}

theorem LivesOn.rejected {placed : OrderId → Prop} {commandId : CommandId}
    {orderId : Option OrderId} {userId : UserId} {symbolId : SymbolId} {reason : RejectReason}
    (g : SequenceGenerator) (hsettled : ∀ id, (after id history).Settled)
    (hlives : ∀ r ∈ book.activeOrders, after r.orderId history = r.life) :
    LivesOn placed book book history
      [makeRejection g commandId orderId userId symbolId reason] := by
  have hsame : ∀ id, after id (history ++ [makeRejection g commandId orderId userId symbolId
      reason]) = after id history := fun id => after_concat id history _
  exact ⟨fun id => by rw [hsame]; exact hsettled id, fun r hr => by rw [hsame]; exact hlives r hr,
    fun id _ _ => hsame id, fun r hr => Or.inr ⟨r, hr, rfl⟩⟩

theorem placeRejection_quantity {command : PlaceOrderCommand}
    (h : book.placeRejection command = none) : 0 < command.quantity.lots := by
  unfold placeRejection at h
  simp only at h
  split_ifs at h with _ _ hquantity
  rw [Bool.not_eq_true, Bool.not_eq_false', validateSymbolQuantity] at hquantity
  simp only [Bool.and_eq_true] at hquantity
  exact of_decide_eq_true hquantity.1.1.1.1

/-- A placed order starts its life, its makers go on with theirs. -/
theorem lives_processPlace (hok : book.Ok) (hsettled : ∀ id, (after id history).Settled)
    (hlives : ∀ r ∈ book.activeOrders, after r.orderId history = r.life)
    (command : PlaceOrderCommand) (g : SequenceGenerator)
    (hunknown : after command.orderId history = .unknown) :
    LivesOn (fun id => id = command.orderId ∧
        hasEventOrderAccepted (book.processPlace command g).1 = true)
      book (book.processPlace command g).2.1 history (book.processPlace command g).1 := by
  unfold processPlace
  cases hr : book.placeRejection command with
  | some reason => exact .rejected g hsettled hlives
  | none =>
    have hquantity := placeRejection_quantity hr
    obtain ⟨hid, -⟩ := placeRejection_fresh hr
    have haccepted : ∀ id, after id (history ++ [acceptedEvent command g]) =
        if id = command.orderId then .live command.quantity.lots command.quantity.lots
        else after id history := by
      intro id
      rw [after_concat]
      split_ifs with h
      · have hzero : command.quantity.isZero = false := by simpa using hquantity
        rw [h, hunknown]
        simp only [acceptedEvent, step, hzero, ↓reduceIte, Bool.false_eq_true]
      · exact if_neg (Ne.symm h)
    have hstart : Lives ⟨book, incomingOrder command g.nextSequence, g.nextEvent⟩
        (history ++ [acceptedEvent command g]) := by
      refine ⟨fun id => ?_, fun r hr => ?_, ?_, hid⟩
      · rw [haccepted]
        split_ifs
        · trivial
        · exact hsettled id
      · rw [haccepted, if_neg (hid r hr)]
        exact hlives r hr
      · rw [haccepted]
        have hopen : (incomingOrder command g.nextSequence).isFilled = false := by
          rw [isFilled_eq_false]
          exact hquantity
        unfold OrderSnapshot.life
        rw [hopen]
        exact if_pos rfl
    have hmatched := hstart.matchLoop
      ((ordersOf (book.levels command.side.opposite)).length + 1) hok
    have hsub := matchLoop_subset (·.orderId) (fun _ _ => rfl)
      ((ordersOf (book.levels command.side.opposite)).length + 1)
      ⟨book, incomingOrder command g.nextSequence, g.nextEvent⟩
    obtain ⟨rem, hinc⟩ := matchLoop_incoming
      ((ordersOf (book.levels command.side.opposite)).length + 1)
      ⟨book, incomingOrder command g.nextSequence, g.nextEvent⟩
    dsimp only [matchIncomingOrder]
    change Lives _ _ ∧ ∀ id, id ≠ command.orderId → _ at hmatched
    generalize hm : QueueBook.matchLoop _ _ = m at hmatched hsub hinc
    have hm' : QueueBook.matchLoop ((ordersOf (book.levels (incomingOrder command
        g.nextSequence).side.opposite)).length + 1)
        ⟨book, incomingOrder command g.nextSequence, g.nextEvent⟩ = m := hm
    rw [hm']
    obtain ⟨matchEvents, t⟩ := m
    obtain ⟨hend, hothers⟩ := hmatched
    have hincId : t.incoming.orderId = command.orderId := by
      change t.incoming = _ at hinc
      rw [hinc]
      rfl
    have hevents : history ++ (acceptedEvent command g :: matchEvents) =
        history ++ [acceptedEvent command g] ++ matchEvents := by simp
    have hmid : LivesOn (fun id => id = command.orderId) book t.book history
        (acceptedEvent command g :: matchEvents) := by
      refine ⟨fun id => ?_, fun r hr => ?_, fun id hplaced hr => ?_, fun r hr => ?_⟩
      · rw [hevents]
        exact hend.settled id
      · rw [hevents]
        exact hend.resting r hr
      · rw [hevents, hothers id hplaced hr, haccepted, if_neg hplaced]
      · obtain ⟨a, ha, hid⟩ := List.mem_map.1 (hsub _ (List.mem_map_of_mem hr))
        exact Or.inr ⟨a, ha, hid⟩
    have hflag : ∀ xs, hasEventOrderAccepted (acceptedEvent command g :: xs) = true := fun _ => rfl
    split_ifs with hrest
    · have hdelta : ∀ id d, after id (history ++ (acceptedEvent command g :: matchEvents ++
          [.orderBookDelta d])) = after id (history ++ (acceptedEvent command g :: matchEvents)) := by
        intro id d
        rw [← List.append_assoc, after_concat]
        rfl
      generalize hx : ({ t.incoming with price := command.price } : OrderSnapshot) = x
      have hxid : x.orderId = command.orderId := by rw [← hx]; exact hincId
      have hxlife : x.life = t.incoming.life := by rw [← hx]; rfl
      refine ⟨fun id => ?_, fun r hr => ?_, fun id hplaced hr => ?_, fun r hr => ?_⟩
      · rw [hdelta]
        exact hmid.settled id
      · rw [hdelta]
        rcases List.mem_cons.1 ((restOrder_perm _ _).mem_iff.1 hr) with rfl | hr
        · rw [hevents, hxid, ← hincId, hxlife]
          exact hend.incoming
        · exact hmid.resting r hr
      · rw [hdelta]
        exact hmid.others id (fun h => hplaced ⟨h, hflag _⟩) hr
      · rcases List.mem_cons.1 ((restOrder_perm _ _).mem_iff.1 hr) with rfl | hr
        · exact Or.inl ⟨hxid, hflag _⟩
        · exact Or.inr ((hmid.ids r hr).resolve_left fun h =>
            hend.fresh r hr (h.trans hincId.symm))
    · exact ⟨hmid.settled, hmid.resting, fun id hplaced => hmid.others id fun h =>
        hplaced ⟨h, hflag _⟩, fun r hr => Or.inr ((hmid.ids r hr).resolve_left fun h =>
          hend.fresh r hr (h.trans hincId.symm))⟩

/-- A cancel ends one life. -/
theorem lives_processCancel (hok : book.Ok) (hsettled : ∀ id, (after id history).Settled)
    (hlives : ∀ r ∈ book.activeOrders, after r.orderId history = r.life)
    (command : CancelOrderCommand) (g : SequenceGenerator) :
    LivesOn (fun _ => False) book (book.processCancel command g).2.1 history
      (book.processCancel command g).1 := by
  unfold processCancel
  dsimp only
  cases ho : (book.lookup (book.cancelTarget command)).filter
      fun o => o.userId = command.userId with
  | none => exact .rejected g hsettled hlives
  | some o =>
    obtain ⟨hmem, -⟩ := hok.lookup_eq_some.1 (Option.filter_eq_some_iff.1 ho).1
    have hpos := hok.positive o hmem
    have hperm := hok.releaseOrder_perm hmem
    have hlife : o.life = .live o.originalQuantity.lots o.remainingQuantity.lots := by
      unfold OrderSnapshot.life
      rw [isFilled_eq_false.2 hpos]
      rfl
    have hafter : ∀ id, after id (history ++ (book.cancelOrder o g).1) = if id = o.orderId then
        .closed o.originalQuantity.lots (o.originalQuantity.lots - o.remainingQuantity.lots)
        else after id history := by
      intro id
      rw [after_append]
      unfold cancelOrder
      simp only [List.foldl_cons, List.foldl_nil, step]
      by_cases h : id = o.orderId
      · rw [h, hlives o hmem, hlife]
        simp only [↓reduceIte]
      · simp only [h, Ne.symm h, ↓reduceIte]
    refine ⟨fun id => ?_, fun r hr => ?_, fun id _ hne => ?_, fun r hr => ?_⟩
    · rw [hafter]
      split_ifs
      · trivial
      · exact hsettled id
    · obtain ⟨hr, hne⟩ := List.mem_filter.1 (hperm.mem_iff.1 hr)
      rw [hafter, if_neg (of_decide_eq_true hne)]
      exact hlives r hr
    · rw [hafter, if_neg (hne o hmem).symm]
    · exact Or.inr ⟨r, List.mem_of_mem_filter (hperm.mem_iff.1 hr), rfl⟩

end QueueBook
end PerpexEngine
