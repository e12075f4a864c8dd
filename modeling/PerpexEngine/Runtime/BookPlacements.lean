import PerpexEngine.Runtime.PlacedOrders
import PerpexEngine.Core.AccountRuns

/-! Orders placed on the core of a runtime whose books and metadata are in lock step. -/
namespace PerpexEngine
open Program

/-- An order of this id rests in some book. -/
def EngineCore.Rests (core : EngineCore OrderBook) (orderId : OrderId) : Prop :=
  ∃ (id : SymbolId) (book : OrderBook), core.orderBooks[id]? = some book ∧
    orderId ∈ book.registered.map (·.orderId)

namespace Tracks
variable {core : EngineCore OrderBook} {queues : EngineCore QueueBook}

theorem events (h : Tracks core queues) (command : EngineCommand) :
    (core.process command).1 = (queues.process command).1 :=
  (h.rel.process Refines.simulation command fun _ _ _ => trivial).1

theorem rests_iff (h : Tracks core queues) (orderId : OrderId) :
    core.Rests orderId ↔ ∃ (id : SymbolId) (q : QueueBook), queues.orderBooks[id]? = some q ∧
      orderId ∈ q.activeOrders.map (·.orderId) := by
  unfold EngineCore.Rests
  constructor
  · rintro ⟨id, book, hbook, horder⟩
    have hrel := h.rel.books id
    rw [hbook] at hrel
    generalize hq : queues.orderBooks[id]? = theirs at hrel
    cases hrel with
    | some href =>
      refine ⟨id, _, hq, ?_⟩
      exact ((href.rep.registered_perm href.ok.toKeyed).map _).mem_iff.1 horder
  · rintro ⟨id, q, hq, horder⟩
    have hrel := h.rel.books id
    rw [hq] at hrel
    generalize hbook : core.orderBooks[id]? = mine at hrel
    cases hrel with
    | some href =>
      refine ⟨id, _, hbook, ?_⟩
      exact ((href.rep.registered_perm href.ok.toKeyed).map _).mem_iff.2 horder

end Tracks

/-- The books of the core and the metadata of the ledger are in lock step. -/
def EngineRuntime.InLockstep (rt : EngineRuntime) : Prop :=
  ∃ queues, Tracks rt.core queues ∧ Lockstep queues rt.ledger.metadataStore

/-- The metadata of an order with the quantity it was asked for. -/
def askedMetadata (coreInput : PlaceOrderInput) (quantity : ℤ) : OrderMetadata :=
  { mappedMetadata coreInput with originalQuantity := quantity, remainingQuantity := quantity }

theorem pendingMetadataOf_coreInput (input : PlaceOrderInput) (capped : AdapterQuantity) :
    pendingMetadataOf input (mappedMetadata (coreInputOf input capped)) =
      askedMetadata (coreInputOf input capped) input.quantity := by
  unfold pendingMetadataOf coreInputOf
  split_ifs <;> rfl

/-- The position an order trades for. -/
def PlaceOrderInput.key (input : PlaceOrderInput) : PositionRiskKey :=
  ⟨input.envelope.userId, input.marketId⟩

section Asked
variable {coreInput : PlaceOrderInput} {quantity : ℤ}

theorem PlaceOrderInput.Mappable.describes (h : coreInput.Mappable) (seq n : EngineSequence) :
    (askedMetadata coreInput quantity).Describes (mappedCommand coreInput seq).symbolId
      (quantity - (mappedCommand coreInput seq).quantity.lots)
      (incomingOrder (mappedCommand coreInput seq) n) where
  orderId := rfl
  market := (Int.toNat_of_nonneg h.market.1.le).symm
  user := (Int.toNat_of_nonneg h.userId).symm
  side := rfl
  remaining := by
    have hsum : ∀ q l : ℤ, q = l + (q - l) := fun q l => by omega
    exact hsum quantity _

theorem lots_le_quantity (seq : EngineSequence) (h : 0 ≤ coreInput.quantity) :
    ((mappedCommand coreInput seq).quantity.lots : ℤ) ≤ coreInput.quantity := by
  have hmod : (mappedCommand coreInput seq).quantity.lots ≤ coreInput.quantity.toNat :=
    Nat.mod_le _ _
  exact (Int.ofNat_le.2 hmod).trans (Int.toNat_of_nonneg h).le

theorem askedMetadata_marginSound (hquantity : 0 < quantity) :
    (askedMetadata coreInput quantity).MarginSound where
  original := hquantity
  nonneg h := h
  reserved _ := le_refl _

end Asked

/-- The core took an order in: its trades in terms of positions, and what the store must become. -/
structure EngineRuntime.Takes (rt : EngineRuntime) (coreInput : PlaceOrderInput) (quantity : ℤ)
    (place : PlaceOrderCommand) (p : OrderMetadata) (ts : List (Transfer PositionRiskKey)) :
    Prop where
  accepted : hasOrderAccepted (rt.core.process (.placeOrder place)).1 = true
  signed : ((rt.ledger.holdings (some (askedMetadata coreInput quantity))).settle
    (rt.core.process (.placeOrder place)).1).signed = Transfer.settle rt.ledger.signed ts
  taken : TakenBy coreInput.side coreInput.key ts
  within : WithinMarket coreInput.marketId ts
  trades : ts = transfersOf coreInput.side coreInput.key rt.ledger.metadataStore
    (tradesOf (rt.core.process (.placeOrder place)).1)
  fits : Transfer.total ts ≤ coreInput.quantity
  pending : ((rt.ledger.holdings (some (askedMetadata coreInput quantity))).settle
    (rt.core.process (.placeOrder place)).1).pending = some p
  continues : (askedMetadata coreInput quantity).Continues p
  remaining : p.remainingQuantity = quantity - Transfer.total ts
  takers : ∀ t ∈ tradesOf (rt.core.process (.placeOrder place)).1,
    t.takerOrderId = place.orderId
  marketed : ∀ e ∈ (rt.core.process (.placeOrder place)).1, e.Marketed
  new : ¬rt.core.Rests place.orderId
  unfiled : rt.ledger.metadataStore[place.orderId]? = none
  rests : ∀ id, (rt.core.process (.placeOrder place)).2.Rests id →
    rt.core.Rests id ∨ id = place.orderId ∧ canRest place = true
  lockstep : ∀ rt' : EngineRuntime, rt'.core = (rt.core.process (.placeOrder place)).2 →
    (∀ id : OrderId, id ≠ place.orderId →
      id ∉ closedIds (rt.core.process (.placeOrder place)).1 →
        rt'.ledger.metadataStore[id]? =
          ((rt.ledger.holdings (some (askedMetadata coreInput quantity))).settle
            (rt.core.process (.placeOrder place)).1).store[id]?) →
    (canRest place = true → place.orderId ∉ closedIds (rt.core.process (.placeOrder place)).1 →
      quantity = place.quantity.lots ∧ rt'.ledger.metadataStore[place.orderId]? = some p) →
    (∀ (id : OrderId) m, rt'.ledger.metadataStore[id]? = some m →
      ((rt.ledger.holdings (some (askedMetadata coreInput quantity))).settle
        (rt.core.process (.placeOrder place)).1).store[id]? = some m ∨
          id = place.orderId ∧ m = p) → rt'.InLockstep

namespace EngineRuntime.InLockstep
variable {rt : EngineRuntime} {coreInput : PlaceOrderInput} {quantity : ℤ}

theorem marketed (h : rt.InLockstep) {pending : Option OrderMetadata}
    (hpending : ∀ p ∈ pending, 0 < p.marketId) : (rt.ledger.holdings pending).Marketed := by
  obtain ⟨queues, -, hlock⟩ := h
  exact ⟨fun id m hm => (hlock.filed id m hm).2.1, hpending⟩

/-- What the core does with an order: it rejects it, and nothing moves, or takes it in. -/
theorem place (h : rt.InLockstep) (hm : coreInput.Mappable) (hquantity : coreInput.quantity ≤ quantity)
    (seq : EngineSequence) :
    (∃ e, (rt.core.process (.placeOrder (mappedCommand coreInput seq))).1 = [.orderRejected e] ∧
      (∀ id, (rt.core.process (.placeOrder (mappedCommand coreInput seq))).2.Rests id →
        rt.core.Rests id) ∧
      ∀ rt' : EngineRuntime,
        rt'.core = (rt.core.process (.placeOrder (mappedCommand coreInput seq))).2 →
        rt'.ledger.metadataStore = rt.ledger.metadataStore → rt'.InLockstep) ∨
    ∃ p ts, rt.Takes coreInput quantity (mappedCommand coreInput seq) p ts := by
  obtain ⟨queues, htracks, hlock⟩ := h
  have hpositive : 0 < (mappedCommand coreInput seq).symbolId := by
    have hmarket : (0 : ℤ) < coreInput.marketId := hm.market.1
    exact Int.lt_toNat.2 hmarket
  have hlots := lots_le_quantity seq hm.quantity.le
  have hslack : 0 ≤ quantity - (mappedCommand coreInput seq).quantity.lots :=
    sub_nonneg.2 (hlots.trans hquantity)
  have hevents := htracks.events (.placeOrder (mappedCommand coreInput seq))
  have hnext := htracks.process (.placeOrder (mappedCommand coreInput seq))
  rcases @Lockstep.place queues (rt.ledger.holdings (some (askedMetadata coreInput quantity)))
      hlock _ hpositive _ hslack _ _ ⟨_, rfl, fun n => hm.describes seq n, rfl, rfl⟩ with
    ⟨e, hrejected, hbooks, hlock'⟩ | ⟨book, book', ts, ha⟩
  · left
    refine ⟨e, hevents.trans hrejected, fun id hid => ?_, fun rt' hcore hstore => ?_⟩
    · obtain ⟨s, q, hq, hmem⟩ := (hnext.rests_iff id).1 hid
      exact (htracks.rests_iff id).2 ⟨s, q, hbooks s ▸ hq, hmem⟩
    · exact ⟨_, hcore ▸ hnext, hstore ▸ hlock'⟩
  · right
    have hsettled := Holdings.continues_settle
      (rt.ledger.holdings (some (askedMetadata coreInput quantity)))
      (queues.process (.placeOrder (mappedCommand coreInput seq))).1
    obtain ⟨p, hp, -, hremaining, -⟩ := ha.placed.pending
    have hcontinues := hsettled.pending
    rw [hp] at hcontinues
    have hsymbol : ((mappedCommand coreInput seq).symbolId : ℤ) = coreInput.marketId :=
      Int.toNat_of_nonneg hm.market.1.le
    have hasked : 0 < quantity := lt_of_lt_of_le hm.quantity hquantity
    refine ⟨p, ts, ?_⟩
    constructor
    all_goals try rw [hevents]
    · exact ha.placed.accepted
    · exact ha.placed.signed
    · exact ha.placed.taken
    · exact hsymbol ▸ ha.placed.within
    · exact ha.placed.trades
    · exact ha.placed.fits.trans hlots
    · exact hp
    · cases hcontinues with
      | some hcontinues => exact hcontinues
    · have hsum : ∀ q l t : ℤ, l + (q - l) - t = q - t := fun q l t => by omega
      exact hremaining.trans (hsum _ _ _)
    · exact fun t ht => (ha.placed.parties t ht).2
    · exact ha.placed.marketed
    · intro hrests
      obtain ⟨s, q, hq, hmem⟩ := (htracks.rests_iff _).1 hrests
      obtain ⟨r, hr, hid⟩ := List.mem_map.1 hmem
      have hrecorded := hlock.recorded hq hr
      rw [hid, ha.fresh] at hrecorded
      cases hrecorded
    · cases hfound : rt.ledger.metadataStore[(mappedCommand coreInput seq).orderId]? with
      | none => rfl
      | some m =>
        have hrecorded := (hlock.filed _ m hfound).2.2.2
        rw [ha.fresh] at hrecorded
        cases hrecorded
    · intro id hid
      obtain ⟨s, q, hq, hmem⟩ := (hnext.rests_iff id).1 hid
      obtain ⟨r, hr, rfl⟩ := List.mem_map.1 hmem
      rw [ha.books] at hq
      split_ifs at hq with hsame
      · cases hq
        rcases ha.placed.kept r hr with hown | hkept
        · exact Or.inr ⟨hown, ha.placed.rests r hr hown⟩
        · exact Or.inl ((htracks.rests_iff _).2 ⟨_, book, ha.before, hkept⟩)
      · exact Or.inl ((htracks.rests_iff _).2 ⟨s, q, hq, List.mem_map_of_mem hr⟩)
    · intro rt' hcore hkept hplaced hfiled
      refine ⟨_, hcore ▸ hnext, ha.lockstep hlock hkept (fun hrest hopen => ?_) (fun id m hfound => ?_)
        fun m hm' => ?_⟩
      · obtain ⟨hq, hstored⟩ := hplaced hrest hopen
        exact ⟨sub_eq_zero.2 hq, hstored.trans hp.symm⟩
      · rcases hfiled id m hfound with hkept | ⟨hown, rfl⟩
        · exact Or.inl hkept
        · exact Or.inr ⟨hown, hp⟩
      · cases hm'
        exact ⟨hm.market.1, askedMetadata_marginSound hasked⟩

end EngineRuntime.InLockstep
section Front

/-- What placing an order left: nothing if the core rejected it, else the trades it took. -/
inductive EngineRuntime.Places (rt : EngineRuntime) (input : PlaceOrderInput)
    (capped : AdapterQuantity) : EngineProcessResult × List EngineEvent → EngineRuntime → Prop
  | rejected {result : EngineProcessResult} {e : OrderRejected} {after : EngineRuntime}
    (store : after.ledger.metadataStore = rt.ledger.metadataStore)
    (signed : after.ledger.signed = rt.ledger.signed)
    (rests : ∀ id, after.core.Rests id → rt.core.Rests id)
    (expired : projected EventPayload.expired? result.events = []) :
    Places rt input capped (result, [.orderRejected e]) after
  | accepted {place : PlaceOrderCommand} {p : OrderMetadata} {ts : List (Transfer PositionRiskKey)}
    {result : EngineProcessResult} {after : EngineRuntime}
    (takes : rt.Takes (coreInputOf input capped) input.quantity place p ts)
    (orderId : place.orderId = input.orderId.toNat)
    (ioc : input.reduceOnly = true → canRest place = false)
    (core : after.core = (rt.core.process (.placeOrder place)).2)
    (signed : after.ledger.signed = Transfer.settle rt.ledger.signed ts)
    (store : ∀ id : OrderId, after.ledger.metadataStore[id]? =
      if input.reduceOnly = true ∧ id = p.orderId then none
      else if id ∈ closedIds (rt.core.process (.placeOrder place)).1 then none
      else if id = p.orderId then some p
      else ((rt.ledger.holdings (some (askedMetadata (coreInputOf input capped)
        input.quantity))).settle (rt.core.process (.placeOrder place)).1).store[id]?)
    (expired : projected EventPayload.expired? result.events =
      if input.reduceOnly = true ∧ 0 < input.quantity - reduceOnlyFilledQuantity p.orderId
          (rt.core.process (.placeOrder place)).1 then
        [orderExpiredPayload p (input.quantity - reduceOnlyFilledQuantity p.orderId
          (rt.core.process (.placeOrder place)).1)]
      else []) :
    Places rt input capped (result, (rt.core.process (.placeOrder place)).1) after

theorem checkReduceOnlyOrder_le {input : PlaceOrderInput} {ledger : Ledger}
    {capped : AdapterQuantity} (h : checkReduceOnlyOrder input ledger = .ok capped) :
    capped ≤ input.quantity ∧ (input.reduceOnly = false → capped = input.quantity) := by
  unfold checkReduceOnlyOrder at h
  split at h
  · cases h
    exact ⟨le_refl _, fun _ => rfl⟩
  · rename_i hreduce
    split at h
    · cases h
    · split at h
      · cases h
      · split at h
        · cases h
        · cases h
          exact ⟨min_le_left _ _, fun hplain => absurd hplain hreduce⟩

namespace EngineRuntime.InLockstep
variable {rt : EngineRuntime}

theorem placeOnBook (h : rt.InLockstep) (record : InboundEngineRecord) {input : PlaceOrderInput}
    {capped : AdapterQuantity} (hfits : input.reduceOnly = false → FitsInt64 input.quantity)
    (hcapped : checkReduceOnlyOrder input rt.ledger = .ok capped) :
    Ensures (placeOnBook record input capped) rt
      (fun r after => after.InLockstep ∧ rt.Places input capped r after) fun after => after = rt := by
  obtain ⟨hle, hplain⟩ := checkReduceOnlyOrder_le hcapped
  unfold PerpexEngine.placeOnBook
  rw [ensures_bind, ensures_liftExcept]
  refine ⟨fun mapped hmapped => ?_, fun _ _ => rfl⟩
  obtain ⟨hm, rfl⟩ := mapPlaceOrderToCore_eq_ok.1 hmapped
  dsimp only
  rw [ensures_bind, ensures_get, ensures_bind, ensures_processCore, ensures_bind]
  have hquantity : (coreInputOf input capped).quantity ≤ input.quantity := by
    unfold coreInputOf
    split_ifs
    · exact hle
    · exact le_refl _
  have hmarket : (coreInputOf input capped).marketId = input.marketId := by
    unfold coreInputOf
    split_ifs <;> rfl
  have hmarketed := @marketed rt h (some (askedMetadata (coreInputOf input capped)
    input.quantity)) fun p hp => by
      cases hp
      exact hm.market.1
  rw [pendingMetadataOf_coreInput]
  unfold withLedger
  rw [ensures_zoom]
  rcases h.place hm hquantity (receivedSequence record) with ⟨e, hrejected, hrests, hlock⟩ |
    ⟨p, ts, ht⟩
  · rw [hrejected]
    have hquiet : hasOrderAccepted [EngineEvent.orderRejected e] = false := rfl
    refine (ensures_settlePlacedOrder hmarketed hm.market.1 (fun e' he' => ?_) rfl
      (fun haccepted => absurd haccepted (hquiet ▸ Bool.false_ne_true)) hm.market.1).mono ?_
        fun _ hthrown => hthrown.elim
    · rw [List.mem_singleton.1 he']
      trivial
    · rintro result l ⟨hsigned, hstore, hexpired⟩
      have hsame : l.metadataStore = rt.ledger.metadataStore := by
        apply Std.ExtTreeMap.ext_getElem?
        intro id
        rw [hstore, hquiet]
        simp [closedIds, Ledger.holdings, Holdings.event]
      refine ⟨hlock _ rfl hsame, .rejected hsame hsigned hrests ?_⟩
      rw [hexpired, hquiet]
      simp
  · have hown : p.orderId = (mappedCommand (coreInputOf input capped)
        (receivedSequence record)).orderId := by
      rw [ht.continues]
      rfl
    have hmarketId : p.marketId = (coreInputOf input capped).marketId := by
      rw [ht.continues]
      rfl
    have hioc : input.reduceOnly = true → canRest (mappedCommand (coreInputOf input capped)
        (receivedSequence record)) = false := by
      intro hreduce
      unfold coreInputOf
      rw [if_pos hreduce]
      cases input.orderType <;> rfl
    have hunfiled : (rt.ledger.holdings (some (askedMetadata (coreInputOf input capped)
        input.quantity))).store[p.orderId]? = none := hown ▸ ht.unfiled
    have hnone := Holdings.store_settle_none hunfiled (rt.core.process (.placeOrder (mappedCommand
      (coreInputOf input capped) (receivedSequence record)))).1
    refine (ensures_settlePlacedOrder hmarketed hm.market.1 ht.marketed ht.pending
      (fun _ => hnone) (hmarketId ▸ hm.market.1)).mono ?_ fun _ hthrown => hthrown.elim
    rintro result l ⟨hsigned, hstore, hexpired⟩
    simp only [ht.accepted, and_true, true_and] at hstore hexpired
    refine ⟨ht.lockstep _ rfl (fun id hne hopen => ?_) (fun hrest hopen => ?_)
      fun id m hfound => ?_, .accepted ht ?_ hioc rfl (hsigned.trans ht.signed) hstore hexpired⟩
    · refine (hstore id).trans ?_
      rw [← hown] at hne
      simp [hne, hopen]
    · have hreduce : input.reduceOnly = false := by
        cases hreduce : input.reduceOnly with
        | false => rfl
        | true =>
          rw [hioc hreduce] at hrest
          cases hrest
      constructor
      · have hsame : coreInputOf input capped = input := by
          unfold coreInputOf
          rw [hreduce]
          rfl
        rw [hsame]
        have hbound : input.quantity.toNat < 2 ^ 64 := by
          have hless : ∀ q : ℤ, q < 2 ^ 63 → q.toNat < 2 ^ 64 := fun q hq => by omega
          exact hless _ (hfits hreduce).2
        have hlots : (mappedCommand input (receivedSequence record)).quantity.lots =
          input.quantity.toNat := Nat.mod_eq_of_lt hbound
        rw [hlots]
        exact (Int.toNat_of_nonneg (hsame ▸ hm.quantity).le).symm
      · refine (hstore _).trans ?_
        rw [← hown] at hopen ⊢
        simp [hreduce, hopen]
    · have hfound : l.metadataStore[id]? = some m := hfound
      rw [hstore] at hfound
      split at hfound
      · cases hfound
      · split at hfound
        · cases hfound
        · split at hfound
          · rename_i hid
            cases hfound
            exact Or.inr ⟨hid.trans hown, rfl⟩
          · exact Or.inl hfound
    · unfold coreInputOf
      split_ifs <;> rfl

end EngineRuntime.InLockstep
end Front
end PerpexEngine
