import PerpexEngine.Core.TradeParties
import PerpexEngine.Runtime.RuntimeRuns

/-! Trades and the account deltas that settle them: which ids the translation of trades gives them. -/
namespace PerpexEngine
open Program

def EventPayload.trade? : EventPayload → Option TradeExecutedPayload
  | tradeExecuted p => some p
  | _ => none

def EventPayload.accountDeltaId? : EventPayload → Option Text
  | accountDelta p => some p.accountDeltaId
  | _ => none

def tradesIn (events : List EngineEventRecord) : List TradeExecutedPayload :=
  events.filterMap (·.payload.trade?)

def accountDeltaIdsIn (events : List EngineEventRecord) : List Text :=
  events.filterMap (·.payload.accountDeltaId?)

@[simp] theorem tradesIn_append (a b : List EngineEventRecord) :
    tradesIn (a ++ b) = tradesIn a ++ tradesIn b := List.filterMap_append

@[simp] theorem accountDeltaIdsIn_append (a b : List EngineEventRecord) :
    accountDeltaIdsIn (a ++ b) = accountDeltaIdsIn a ++ accountDeltaIdsIn b := List.filterMap_append

/-- Against whom, at which rank and in which liquidation a trade deleveraged. -/
structure Deleveraging where
  liquidationId : Text
  rank : ℤ
  userId : AdapterUserId
deriving DecidableEq, Repr

def Deleveraging.adlId (d : Deleveraging) : Text := adlIdFor d.liquidationId d.rank d.userId

/-- The deleveraging that a trade is, unless it came from the book. -/
def TradeExecutedPayload.deleveraging (p : TradeExecutedPayload) : Option Deleveraging :=
  match p.liquidation, p.adl with
  | some liquidation, some adl =>
    some ⟨liquidation.liquidationId, adl.adlPriorityRank, adl.counterpartyUserId⟩
  | _, _ => none

def deleveragingsIn (events : List EngineEventRecord) : List Deleveraging :=
  (tradesIn events).filterMap (·.deleveraging)

def bookTradeIdsIn (events : List EngineEventRecord) : List TradeId :=
  ((tradesIn events).filter fun p => p.deleveraging.isNone).map (·.tradeId)

@[simp] theorem deleveragingsIn_append (a b : List EngineEventRecord) :
    deleveragingsIn (a ++ b) = deleveragingsIn a ++ deleveragingsIn b := by
  unfold deleveragingsIn
  rw [tradesIn_append, List.filterMap_append]

@[simp] theorem bookTradeIdsIn_append (a b : List EngineEventRecord) :
    bookTradeIdsIn (a ++ b) = bookTradeIdsIn a ++ bookTradeIdsIn b := by
  unfold bookTradeIdsIn
  rw [tradesIn_append, List.filter_append, List.map_append]

/-- Neither trades nor account deltas. -/
structure Quiet (events : List EngineEventRecord) : Prop where
  trades : tradesIn events = []
  deltas : accountDeltaIdsIn events = []

theorem Quiet.nil : Quiet [] := ⟨rfl, rfl⟩

theorem Quiet.append {a b : List EngineEventRecord} (ha : Quiet a) (hb : Quiet b) :
    Quiet (a ++ b) where
  trades := by rw [tradesIn_append, ha.trades, hb.trades]; rfl
  deltas := by rw [accountDeltaIdsIn_append, ha.deltas, hb.deltas]; rfl

section Texts

/-- A numeral before a separator can be read back, whatever its sign. -/
theorem text_cut {m n : ℤ} {xs ys : Text} (h : text m ++ 45 :: xs = text n ++ 45 :: ys) :
    m = n ∧ xs = ys := by
  have hdigits : ∀ k : ℕ, (45 : UInt8) ∉ decimal k := fun k hk =>
    absurd (isDigit_of_mem_decimal hk) (by decide)
  have hsign : ∀ (k l : ℕ) (us vs : Text), decimal k ++ 45 :: us ≠ ascii "-" ++ decimal l ++ vs := by
    intro k l us vs heq
    cases hk : decimal k with
    | nil =>
      have hnil := congrArg List.length hk
      unfold decimal at hnil
      simp at hnil
    | cons d ds =>
      rw [hk] at heq
      have hd : d = 45 := (List.cons.inj heq).1
      exact hdigits k (by rw [hk, hd]; exact List.mem_cons_self)
  cases m with
  | ofNat m =>
    cases n with
    | ofNat n =>
      obtain ⟨hmn, hxs⟩ := cut_inj (hdigits m) (hdigits n) h
      exact ⟨by rw [decimal_injective hmn], hxs⟩
    | negSucc n => exact absurd h (hsign _ _ _ _)
  | negSucc m =>
    cases n with
    | ofNat n => exact absurd h.symm (hsign _ _ _ _)
    | negSucc n =>
      have htail : decimal (m + 1) ++ 45 :: xs = decimal (n + 1) ++ 45 :: ys := (List.cons.inj h).2
      obtain ⟨hmn, hxs⟩ := cut_inj (hdigits _) (hdigits _) htail
      exact ⟨by rw [Nat.succ.inj (decimal_injective hmn)], hxs⟩

/-- `account_delta_id`. -/
def deltaIdText (tradeId : TradeId) (userId : AdapterUserId) (orderId : OrderId) : Text :=
  ascii "acct_fill_" ++ text tradeId ++ ascii "_" ++ text userId ++ ascii "_" ++ text orderId

theorem deltaIdText_inj {t t' : TradeId} {u u' : AdapterUserId} {o o' : OrderId}
    (h : deltaIdText t u o = deltaIdText t' u' o') : t = t' ∧ o = o' := by
  unfold deltaIdText at h
  simp only [List.append_assoc] at h
  have h₁ := List.append_cancel_left h
  have hsep : ∀ z : ℤ, (95 : UInt8) ∉ text z := not_mem_text (by decide) (by decide)
  obtain ⟨ht, h₂⟩ := cut_inj (hsep _) (hsep _) h₁
  obtain ⟨-, h₃⟩ := cut_inj (hsep _) (hsep _) h₂
  exact ⟨Int.ofNat.inj (text_injective ht), Int.ofNat.inj (text_injective h₃)⟩

theorem reverse_text_cut {m n : ℤ} {xs ys : Text}
    (h : (text m).reverse ++ 45 :: xs = (text n).reverse ++ 45 :: ys) (hx : xs.head? ≠ some 45)
    (hy : ys.head? ≠ some 45) : m = n ∧ xs = ys := by
  have hdigits : ∀ k : ℕ, (45 : UInt8) ∉ (decimal k).reverse := fun k hk =>
    absurd (isDigit_of_mem_decimal (List.mem_reverse.1 hk)) (by decide)
  have hneg : ∀ (k : ℕ) (us : Text), (text (.negSucc k)).reverse ++ us =
      (decimal (k + 1)).reverse ++ 45 :: us := by
    intro k us
    have hreverse : (text (.negSucc k)).reverse = (decimal (k + 1)).reverse ++ [45] :=
      List.reverse_append
    rw [hreverse, List.append_assoc]
    rfl
  cases m with
  | ofNat m =>
    cases n with
    | ofNat n =>
      obtain ⟨hmn, hxs⟩ := cut_inj (hdigits m) (hdigits n) h
      exact ⟨by rw [decimal_injective (List.reverse_injective hmn)], hxs⟩
    | negSucc n =>
      rw [hneg] at h
      obtain ⟨-, hxs⟩ := cut_inj (hdigits m) (hdigits _) h
      exact absurd (by rw [hxs]; rfl) hx
  | negSucc m =>
    rw [hneg] at h
    cases n with
    | ofNat n =>
      obtain ⟨-, hys⟩ := cut_inj (hdigits _) (hdigits n) h
      exact absurd (by rw [← hys]; rfl) hy
    | negSucc n =>
      rw [hneg] at h
      obtain ⟨hmn, hxs⟩ := cut_inj (hdigits _) (hdigits _) h
      exact ⟨by rw [Nat.succ.inj (decimal_injective (List.reverse_injective hmn))],
        (List.cons.inj hxs).2⟩

/-- An ADL id tells the liquidation, the rank and the user, read from its end. -/
theorem adlIdFor_inj {l l' : Text} {r r' : ℤ} {u u' : AdapterUserId} (hr : 0 ≤ r) (hr' : 0 ≤ r')
    (h : adlIdFor l r u = adlIdFor l' r' u') : l = l' ∧ r = r' ∧ u = u' := by
  obtain ⟨m, rfl⟩ := Int.eq_ofNat_of_zero_le hr
  obtain ⟨n, rfl⟩ := Int.eq_ofNat_of_zero_le hr'
  have hreverse : ∀ (l : Text) (k : ℕ) (u : AdapterUserId), (adlIdFor l k u).reverse =
      (text u).reverse ++ 45 :: ((decimal k).reverse ++ 45 :: (ascii "lda-" ++ l.reverse)) := by
    intro l k u
    have htext : text (k : ℤ) = decimal k := rfl
    have hascii : (ascii "-adl-").reverse = 45 :: ascii "lda-" := by decide +kernel
    unfold adlIdFor
    rw [htext]
    simp only [List.reverse_append, hascii, List.append_assoc]
    rfl
  have hdigits : ∀ k : ℕ, (45 : UInt8) ∉ (decimal k).reverse := fun k hk =>
    absurd (isDigit_of_mem_decimal (List.mem_reverse.1 hk)) (by decide)
  have hhead : ∀ (k : ℕ) (us : Text), ((decimal k).reverse ++ us).head? ≠ some 45 := by
    intro k us
    cases hk : (decimal k).reverse with
    | nil =>
      have hnil := congrArg List.length hk
      unfold decimal at hnil
      simp at hnil
    | cons d ds =>
      intro hd
      have hmem : (45 : UInt8) ∈ (decimal k).reverse := by
        rw [hk, ← Option.some.inj hd]
        exact List.mem_cons_self
      exact hdigits k hmem
  have hrev := congrArg List.reverse h
  rw [hreverse, hreverse] at hrev
  obtain ⟨hu, hrest⟩ := reverse_text_cut hrev (hhead _ _) (hhead _ _)
  obtain ⟨hmn, hlast⟩ := cut_inj (hdigits m) (hdigits n) hrest
  refine ⟨List.reverse_injective (List.append_cancel_left hlast), ?_, hu⟩
  rw [decimal_injective (List.reverse_injective hmn)]

end Texts

/-- Each account delta settles a trade among these events, and two of them are two as long as the
trades have different ids. -/
structure Matched (events : List EngineEventRecord) : Prop where
  owner : ∀ id ∈ accountDeltaIdsIn events, ∃ p ∈ tradesIn events, ∃ userId orderId,
    id = deltaIdText p.tradeId userId orderId
  nodup : ((tradesIn events).map (·.tradeId)).Nodup → (accountDeltaIdsIn events).Nodup

theorem Quiet.matched {events : List EngineEventRecord} (h : Quiet events) : Matched events where
  owner id hid := by
    rw [h.deltas] at hid
    cases hid
  nodup _ := by
    rw [h.deltas]
    exact List.nodup_nil

theorem Matched.append {a b : List EngineEventRecord} (ha : Matched a) (hb : Matched b) :
    Matched (a ++ b) where
  owner id hid := by
    rw [accountDeltaIdsIn_append] at hid
    rcases List.mem_append.1 hid with hid | hid
    · obtain ⟨p, hp, howner⟩ := ha.owner id hid
      exact ⟨p, by simp [hp], howner⟩
    · obtain ⟨p, hp, howner⟩ := hb.owner id hid
      exact ⟨p, by simp [hp], howner⟩
  nodup h := by
    rw [tradesIn_append, List.map_append, List.nodup_append] at h
    obtain ⟨hna, hnb, hapart⟩ := h
    rw [accountDeltaIdsIn_append, List.nodup_append]
    refine ⟨ha.nodup hna, hb.nodup hnb, ?_⟩
    rintro id hid _ hid' rfl
    obtain ⟨p, hp, u, o, heq⟩ := ha.owner id hid
    obtain ⟨q, hq, v, r, heq'⟩ := hb.owner id hid'
    rw [heq] at heq'
    exact hapart _ (List.mem_map_of_mem hp) _ (List.mem_map_of_mem hq) (deltaIdText_inj heq').1

/-- The events of one trade: the trade itself, and at most one account delta for each party. -/
structure Executed (tradeId : TradeId) (deleveraging : Option Deleveraging)
    (events : List EngineEventRecord) : Prop where
  trade : ∃ p, tradesIn events = [p] ∧ p.tradeId = tradeId ∧ p.deleveraging = deleveraging
  deltas : ∃ makerOrderId takerOrderId makerUserId takerUserId, makerOrderId ≠ takerOrderId ∧
    (accountDeltaIdsIn events).Sublist
      [deltaIdText tradeId makerUserId makerOrderId, deltaIdText tradeId takerUserId takerOrderId]

theorem Executed.matched {tradeId : TradeId} {deleveraging : Option Deleveraging}
    {events : List EngineEventRecord} (h : Executed tradeId deleveraging events) :
    Matched events := by
  obtain ⟨⟨p, htrades, rfl, -⟩, maker, taker, u, v, hne, hdeltas⟩ := h
  constructor
  · intro id hid
    rw [htrades]
    rcases List.mem_cons.1 (hdeltas.subset hid) with rfl | hid
    · exact ⟨p, List.mem_cons_self, u, maker, rfl⟩
    · exact ⟨p, List.mem_cons_self, v, taker, List.mem_singleton.1 hid⟩
  · intro _
    refine hdeltas.nodup ?_
    rw [List.nodup_cons, List.mem_singleton]
    exact ⟨fun heq => hne (deltaIdText_inj heq).2, List.nodup_singleton _⟩

section Keyed

/-- Metadata is stored under the id of its order. -/
def Ledger.Keyed (l : Ledger) : Prop :=
  ∀ (orderId : OrderId) metadata, l.metadataStore[orderId]? = some metadata →
    metadata.orderId = orderId

theorem keyed_move {l : Ledger} (h : l.Keyed) {store : OrderMetadataStore}
    (hmove : MetadataMove l.metadataStore store) : Ledger.Keyed { l with metadataStore := store } := by
  intro orderId metadata hfound
  dsimp only at hfound
  cases hmove with
  | insert added =>
    rw [Std.ExtTreeMap.getElem?_insert] at hfound
    split_ifs at hfound with hid
    · cases hfound
      exact Std.LawfulEqCmp.compare_eq_iff_eq.1 hid
    · exact h orderId metadata hfound
  | write hold hid' =>
    rw [Std.ExtTreeMap.getElem?_insert] at hfound
    split_ifs at hfound with hid
    · cases hfound
      rw [hid', h _ _ hold]
      exact Std.LawfulEqCmp.compare_eq_iff_eq.1 hid
    · exact h orderId metadata hfound
  | erase erased =>
    rw [Std.ExtTreeMap.getElem?_erase] at hfound
    split_ifs at hfound
    exact h orderId metadata hfound

theorem keyedRule (markPrices : MarkPrices) :
    LedgerRule markPrices fun l _ l' => l.Keyed → l'.Keyed where
  nothing _ h := h
  append h h' hk := h' (h hk)
  clock _ h := h
  event _ _ _ h := h
  metadata _ _ hmove h := keyed_move h hmove
  fill _ _ _ _ _ h := h

/-- A program that respects the rule keeps the store keyed. -/
theorem yields_of_emits {σ α : Type} {view : σ → Ledger} {out : α → List EngineEventRecord}
    {m : Program Text σ α} {P : α → Prop}
    (hemits : Emits view out (fun l _ l' => l.Keyed → l'.Keyed) m)
    (h : ∀ s, Ensures m s (fun a _ => P a) fun _ => True) :
    Yields (fun s => (view s).Keyed) P m := by
  intro s hs
  refine ((hemits s).and (h s)).mono ?_ ?_
  · exact fun a t ⟨hkeyed, ha⟩ => ⟨ha, hkeyed hs⟩
  · rintro t ⟨⟨-, hkeyed⟩, -⟩
    exact hkeyed hs

theorem yields_makeEvent (context : EngineEventTranslationContext) (marketId : MarketId)
    (payload : EventPayload) : Yields (fun s : TranslationState => s.ledger.Keyed)
      (fun a => tradesIn a.events = payload.trade?.toList ∧
        accountDeltaIdsIn a.events = payload.accountDeltaId?.toList)
      (makeEvent context marketId payload) := by
  refine yields_of_emits (LedgerRule.makeEvent (keyedRule ∅) _ _ _) fun s => ?_
  unfold makeEvent onLedger
  rw [ensures_map, ensures_zoom]
  refine (ensures_makeMarketEvent s.ledger marketId _ _ payload).mono ?_ fun _ _ => trivial
  rintro e _ ⟨-, -, rfl, -⟩
  unfold tradesIn accountDeltaIdsIn
  constructor
  · cases h : e.payload.trade? <;> simp [h]
  · cases h : e.payload.accountDeltaId? <;> simp [h]

theorem yields_makeEvent_quiet (context : EngineEventTranslationContext) (marketId : MarketId)
    {payload : EventPayload} (htrade : payload.trade? = none)
    (hdelta : payload.accountDeltaId? = none) :
    Yields (fun s : TranslationState => s.ledger.Keyed) (fun a => Quiet a.events)
      (makeEvent context marketId payload) := by
  refine (yields_makeEvent context marketId payload).mono fun a ha => ⟨?_, ?_⟩
  · rw [ha.1, htrade]
    rfl
  · rw [ha.2, hdelta]
    rfl

theorem yields_emitWhen {σ : Type} {I : σ → Prop} {P : EngineProcessResult → Prop}
    {m : Program Text σ EngineProcessResult} (c : Prop) [Decidable c] (h : Yields I P m)
    (hnew : P .new) : Yields I P (emitWhen c m) :=
  .ite (fun _ => h) fun _ => .pure hnew

end Keyed

section Translator
variable (context : EngineEventTranslationContext) (markPrices : MarkPrices)

theorem findMetadata_orderId {orderId : OrderId} {state : TranslationState} {metadata : OrderMetadata}
    (h : findMetadata orderId state = some metadata) (hk : state.ledger.Keyed) :
    metadata.orderId = orderId := by
  unfold findMetadata at h
  split at h
  · split_ifs at h with hid
    · cases h
      exact hid
    · exact hk _ _ h
  · exact hk _ _ h

/-- One party of a trade: at most one account delta, under the ids of the trade and its order. -/
theorem yields_appendFillLeg (trade : TradeExecuted) (timestampMs : ℤ) (orderId : OrderId) :
    Yields (fun s : TranslationState => s.ledger.Keyed)
      (fun a => tradesIn a.events = [] ∧ ∃ userId,
        (accountDeltaIdsIn a.events).Sublist [deltaIdText trade.tradeId userId orderId])
      (appendFillLeg context markPrices trade timestampMs orderId) := by
  apply Yields.get
  intro s hs
  split
  · exact ⟨⟨rfl, 0, List.nil_sublist _⟩, hs⟩
  · rename_i metadata hfound
    have hid := findMetadata_orderId hfound hs
    have hput := (keyedRule markPrices).putFillLeg hfound trade.quantity.lots trade.price.ticks
      timestampMs hs
    rw [ensures_bind, ensures_set]
    generalize hleg : fillLeg markPrices s.ledger metadata trade.quantity.lots trade.price.ticks
      timestampMs = leg at hput ⊢
    have hdelta : Yields (fun s : TranslationState => s.ledger.Keyed)
        (fun a => tradesIn a.events = [] ∧ (accountDeltaIdsIn a.events).Sublist
          [deltaIdText trade.tradeId metadata.userId orderId])
        (emitWhen (leg.realizedPnl ≠ 0) (makeEvent context metadata.marketId (.accountDelta
          (accountDeltaPayload leg.metadata leg.previousPosition trade leg.realizedPnl
            context)))) := by
      refine yields_emitWhen _ ((yields_makeEvent _ _ _).mono fun a ha => ⟨ha.1, ?_⟩)
        ⟨rfl, List.nil_sublist _⟩
      rw [ha.2, ← hleg, ← hid]
      exact List.Sublist.refl _
    refine (hdelta.bind fun a ha => ?_) _ hput
    refine (yields_makeEvent_quiet context _ rfl rfl).bind fun b hb => ?_
    refine (yields_makeEvent_quiet context _ rfl rfl).bind fun c hc => .pure ⟨?_, metadata.userId, ?_⟩
    · simp [ha.1, hb.trades, hc.trades]
    · simp only [EngineProcessResult.events_append, accountDeltaIdsIn_append, hb.deltas, hc.deltas,
        List.append_nil]
      exact ha.2

/-- The deleveraging that a context stands for. -/
def EngineEventTranslationContext.deleveraging : Option Deleveraging :=
  if context.commandKind = .liquidatePosition then
    context.adl.map fun adl => ⟨context.liquidationId, adl.adlPriorityRank, adl.counterpartyUserId⟩
  else none

theorem tradeExecutedPayload_deleveraging (trade : TradeExecuted) (maker taker : Option OrderMetadata) :
    (tradeExecutedPayload trade maker taker context).deleveraging = context.deleveraging := by
  unfold TradeExecutedPayload.deleveraging tradeExecutedPayload
    EngineEventTranslationContext.deleveraging
  by_cases hkind : context.commandKind = .liquidatePosition
  · simp only [hkind, decide_true, ↓reduceIte]
    cases context.adl <;> rfl
  · simp only [hkind, decide_false, Bool.false_eq_true, ↓reduceIte]

theorem liquidationExecutedPayload_quiet (trade : TradeExecuted) (taker : Option OrderMetadata) :
    (liquidationExecutedPayload trade taker context).trade? = none ∧
      (liquidationExecutedPayload trade taker context).accountDeltaId? = none := by
  unfold liquidationExecutedPayload
  split <;> exact ⟨rfl, rfl⟩

/-- A trade between two orders. -/
theorem yields_appendTradeExecuted {trade : TradeExecuted}
    (hparties : trade.makerOrderId ≠ trade.takerOrderId) :
    Yields (fun s : TranslationState => s.ledger.Keyed)
      (fun a => Executed trade.tradeId context.deleveraging a.events)
      (appendTradeExecuted context markPrices trade) := by
  apply Yields.get
  intro s hs
  obtain ⟨htrade, hdelta⟩ := liquidationExecutedPayload_quiet context trade
    (findMetadata trade.takerOrderId s)
  refine ((yields_makeEvent context _ _).bind fun executed hexecuted => ?_) s hs
  refine (yields_emitWhen _ (yields_makeEvent_quiet context _ htrade hdelta) .nil).bind
    fun liquidation hliquidation => ?_
  unfold appendPositionAndRiskUpdates
  rw [bind_assoc]
  have hclock : Yields (fun s : TranslationState => s.ledger.Keyed) (fun _ : ℤ => True)
      (onLedger readClock) :=
    yields_of_emits (emits_onLedger (keyedRule markPrices).fills.readClock) fun s => trivial
  refine hclock.bind fun timestampMs _ => ?_
  rw [bind_assoc]
  refine (yields_appendFillLeg context markPrices trade timestampMs _).bind fun maker hmaker => ?_
  rw [bind_assoc]
  refine (yields_appendFillLeg context markPrices trade timestampMs _).bind fun taker htaker => ?_
  rw [pure_bind]
  obtain ⟨hmakerTrades, u, hmakerDeltas⟩ := hmaker
  obtain ⟨htakerTrades, v, htakerDeltas⟩ := htaker
  refine .pure ⟨⟨tradeExecutedPayload trade (findMetadata trade.makerOrderId s)
    (findMetadata trade.takerOrderId s) context, ?_, rfl,
      tradeExecutedPayload_deleveraging context trade _ _⟩,
      trade.makerOrderId, trade.takerOrderId, u, v, hparties, ?_⟩
  · simp [hexecuted.1, hliquidation.trades, hmakerTrades, htakerTrades, EventPayload.trade?]
  · have hfirst : accountDeltaIdsIn executed.events = [] := hexecuted.2
    simp only [EngineProcessResult.events_append, accountDeltaIdsIn_append, hfirst,
      hliquidation.deltas, List.nil_append]
    exact hmakerDeltas.append htakerDeltas

/-- Events whose trades are these trades of the book, in their order. -/
structure Booked (trades : List TradeExecuted) (events : List EngineEventRecord) : Prop where
  ids : (tradesIn events).map (·.tradeId) = trades.map (·.tradeId)
  book : deleveragingsIn events = []
  matched : Matched events

theorem Quiet.booked {events : List EngineEventRecord} (h : Quiet events) : Booked [] events where
  ids := by rw [h.trades]; rfl
  book := by unfold deleveragingsIn; rw [h.trades]; rfl
  matched := h.matched

theorem Booked.append {trades trades' : List TradeExecuted} {a b : List EngineEventRecord}
    (ha : Booked trades a) (hb : Booked trades' b) : Booked (trades ++ trades') (a ++ b) where
  ids := by rw [tradesIn_append, List.map_append, List.map_append, ha.ids, hb.ids]
  book := by rw [deleveragingsIn_append, ha.book, hb.book]; rfl
  matched := ha.matched.append hb.matched

theorem yields_translateEvent (hadl : context.adl = none) (filled : List OrderId)
    (event : EngineEvent) (hparties : ∀ trade ∈ tradesOf [event],
      trade.makerOrderId ≠ trade.takerOrderId) :
    Yields (fun s : TranslationState => s.ledger.Keyed)
      (fun a => Booked (tradesOf [event]) a.events)
      (translateEvent context markPrices filled event) := by
  cases event with
  | orderAccepted accepted =>
    apply Yields.get
    intro s hs
    dsimp only
    apply ensures_ite.2
    refine ⟨fun _ => ⟨Quiet.nil.booked, hs⟩, fun _ => ?_⟩
    refine ((yields_makeEvent_quiet context _ rfl rfl).bind fun a ha => .pure ?_) s hs
    exact ha.booked
  | orderRejected rejected =>
    apply Yields.get
    intro s hs
    dsimp only
    generalize findMetadata _ s = found
    cases found with
    | none => exact ⟨Quiet.nil.booked, hs⟩
    | some metadata =>
      apply ensures_ite.2
      refine ⟨fun _ => ⟨Quiet.nil.booked, hs⟩, fun _ => ?_⟩
      refine ((yields_makeEvent_quiet context _ rfl rfl).bind fun a ha => .pure ?_) s hs
      exact ha.booked
  | tradeExecuted trade =>
    refine (yields_appendTradeExecuted context markPrices
      (hparties trade List.mem_cons_self)).mono fun a ha => ?_
    have hmatched := ha.matched
    obtain ⟨⟨p, htrades, hid, hdeleveraging⟩, -⟩ := ha
    have hnone : p.deleveraging = none := by
      rw [hdeleveraging]
      unfold EngineEventTranslationContext.deleveraging
      rw [hadl]
      split_ifs <;> rfl
    refine ⟨?_, ?_, hmatched⟩
    · rw [htrades, List.map_singleton, hid]
      rfl
    · unfold deleveragingsIn
      rw [htrades, List.filterMap_cons_none hnone]
      rfl
  | orderPartial e => exact .pure Quiet.nil.booked
  | orderFilled e => exact .pure Quiet.nil.booked
  | orderCancelled cancelled =>
    apply Yields.get
    intro s hs
    refine ((yields_makeEvent_quiet context _ rfl rfl).bind fun a ha => .pure ?_) s hs
    exact ha.booked
  | orderBookDelta delta =>
    exact (yields_makeEvent_quiet context _ rfl rfl).mono fun a ha => ha.booked

/-- The trades of a book, translated. -/
theorem yields_translate (hadl : context.adl = none) (events : List EngineEvent)
    (hparties : ∀ trade ∈ tradesOf events, trade.makerOrderId ≠ trade.takerOrderId) :
    Yields (fun s : TranslationState => s.ledger.Keyed)
      (fun a => Booked (tradesOf events) a.events) (translate context markPrices events) := by
  unfold translate
  generalize filledOrderIds events = filled
  induction events with
  | nil => exact .pure Quiet.nil.booked
  | cons event events ih =>
    rw [← List.singleton_append, tradesOf_append] at hparties ⊢
    refine (yields_translateEvent context markPrices hadl filled event fun trade ht =>
      hparties trade (List.mem_append_left _ ht)).bind fun a ha => ?_
    exact (ih fun trade ht => hparties trade (List.mem_append_right _ ht)).bind fun b hb =>
      .pure (ha.append hb)

end Translator

section Adl
variable (context : EngineEventTranslationContext) (markPrices : MarkPrices)
  (input : LiquidatePositionInput) (price : AdapterPrice)

/-- Events whose trades are ADL fills of one liquidation, at different ranks from one on. -/
structure Deleveraged (liquidationId : Text) (rank : ℤ) (events : List EngineEventRecord) :
    Prop where
  all : ∀ p ∈ tradesIn events, ∃ d, p.deleveraging = some d ∧ p.tradeId = adlTradeId d.adlId ∧
    d.liquidationId = liquidationId ∧ rank ≤ d.rank
  nodup : (deleveragingsIn events).Nodup
  matched : Matched events

theorem Deleveraged.of_quiet {liquidationId : Text} {rank : ℤ} {events : List EngineEventRecord}
    (h : Quiet events) : Deleveraged liquidationId rank events where
  all p hp := by
    rw [h.trades] at hp
    cases hp
  nodup := by
    unfold deleveragingsIn
    rw [h.trades]
    exact List.nodup_nil
  matched := h.matched

theorem mem_deleveragingsIn {events : List EngineEventRecord} {d : Deleveraging} :
    d ∈ deleveragingsIn events ↔ ∃ p ∈ tradesIn events, p.deleveraging = some d :=
  List.mem_filterMap

/-- A fill at a rank, then fills at higher ones. -/
theorem Deleveraged.cons {d : Deleveraging} {a b : List EngineEventRecord}
    (ha : Executed (adlTradeId d.adlId) (some d) a)
    (hb : Deleveraged d.liquidationId (d.rank + 1) b) :
    Deleveraged d.liquidationId d.rank (a ++ b) := by
  have hmatched := ha.matched
  obtain ⟨⟨p, htrades, hid, hd⟩, -⟩ := ha
  constructor
  · intro q hq
    rw [tradesIn_append, htrades] at hq
    rcases List.mem_append.1 hq with hq | hq
    · rw [List.mem_singleton.1 hq]
      exact ⟨d, hd, hid, rfl, le_rfl⟩
    · obtain ⟨d', hd', hid', hl, hrank⟩ := hb.all q hq
      exact ⟨d', hd', hid', hl, by omega⟩
  · have hfirst : deleveragingsIn a = [d] := by
      unfold deleveragingsIn
      rw [htrades, List.filterMap_cons_some hd]
      rfl
    rw [deleveragingsIn_append, hfirst, List.singleton_append, List.nodup_cons]
    refine ⟨fun hmem => ?_, hb.nodup⟩
    obtain ⟨q, hq, hdq⟩ := mem_deleveragingsIn.1 hmem
    obtain ⟨d', hd', -, -, hrank⟩ := hb.all q hq
    rw [hdq] at hd'
    cases hd'
    omega
  · exact hmatched.append hb.matched

theorem Deleveraged.mono {liquidationId : Text} {rank rank' : ℤ} {events : List EngineEventRecord}
    (h : Deleveraged liquidationId rank events) (hle : rank' ≤ rank) :
    Deleveraged liquidationId rank' events where
  all p hp := by
    obtain ⟨d, hd, hid, hl, hrank⟩ := h.all p hp
    exact ⟨d, hd, hid, hl, hle.trans hrank⟩
  nodup := h.nodup
  matched := h.matched

theorem yields_setMetadataStore {f : OrderMetadataStore → OrderMetadataStore}
    (hf : ∀ store, MetadataMove store (f store)) :
    Yields (fun s : TranslationState => s.ledger.Keyed) (fun _ : Unit => True)
      (setMetadataStore f) :=
  yields_of_emits (emits_onLedger ((keyedRule ∅).fills.modifyMetadata hf)) fun _ => trivial

/-- One ADL fill is a trade between two orders, under the ids of its liquidation, rank and user. -/
theorem yields_appendAdlFill (hkind : context.commandKind = .liquidatePosition)
    (hid : context.liquidationId = input.liquidationId) (candidate : AdlCandidate)
    (fillQuantity priorityRank : ℤ) :
    let d : Deleveraging := ⟨input.liquidationId, priorityRank, candidate.key.userId⟩
    Yields (fun s : TranslationState => s.ledger.Keyed)
      (fun a => Executed (adlTradeId d.adlId) (some d) a.events)
      (appendAdlFill context markPrices input price candidate fillQuantity priorityRank) := by
  intro d
  apply Yields.get
  intro s hs
  dsimp only
  split
  · exact hs
  · rename_i counterpartyOrderId hcounterparty
    unfold adlCounterpartyOrderId at hcounterparty
    have hapart := List.find?_some hcounterparty
    simp only [decide_eq_true_eq] at hapart
    refine ((yields_setMetadataStore fun store => .insert (adlCounterpartyMetadata input candidate
      counterpartyOrderId fillQuantity priorityRank _)).bind fun _ _ => ?_) s hs
    have hpending : Yields (fun s : TranslationState => s.ledger.Keyed) (fun _ : Unit => True)
        requirePending := by
      apply Yields.get
      intro s hs
      split_ifs
      · exact hs
      · exact ⟨trivial, hs⟩
    refine hpending.bind fun _ _ => ?_
    refine Yields.bind (P := fun a => Executed (adlTradeId d.adlId) (some d) a.events) ?_
      fun a ha => (yields_setMetadataStore fun store => .erase counterpartyOrderId).bind
        fun _ _ => .pure ha
    refine Yields.bind (yields_appendTradeExecuted _ markPrices hapart.1) fun a ha => .pure ?_
    rw [EngineProcessResult.events_append, EngineProcessResult.events_new, List.append_nil]
    unfold EngineEventTranslationContext.deleveraging at ha
    dsimp only at ha
    rw [if_pos hkind, hid] at ha
    exact ha

theorem yields_appendAdlFillsFrom (hkind : context.commandKind = .liquidatePosition)
    (hid : context.liquidationId = input.liquidationId) (candidates : List AdlCandidate)
    (remainingQuantity priorityRank : ℤ) :
    Yields (fun s : TranslationState => s.ledger.Keyed)
      (fun a => Deleveraged input.liquidationId priorityRank a.events)
      (appendAdlFillsFrom context markPrices input price candidates remainingQuantity
        priorityRank) := by
  induction candidates generalizing remainingQuantity priorityRank with
  | nil => exact .pure (.of_quiet .nil)
  | cons candidate candidates ih =>
    unfold appendAdlFillsFrom
    refine .ite (fun _ => .pure (.of_quiet .nil)) fun _ => ?_
    refine .ite (fun _ => ?_) fun _ => ?_
    · exact (ih _ _).mono fun a ha => ha.mono (by omega)
    · refine (yields_appendAdlFill context markPrices input price hkind hid candidate _ _).bind
        fun a ha => (ih _ _).bind fun b hb => .pure ?_
      exact Deleveraged.cons ha hb

/-- The ADL fills of a liquidation. -/
theorem yields_appendAdlFills (hkind : context.commandKind = .liquidatePosition)
    (hid : context.liquidationId = input.liquidationId) (remainingQuantity : ℤ) :
    Yields (fun s : TranslationState => s.ledger.Keyed)
      (fun a => Deleveraged input.liquidationId 1 a.events)
      (appendAdlFills context markPrices input remainingQuantity price) := by
  apply Yields.get
  intro s hs
  split
  · exact ⟨.of_quiet .nil, hs⟩
  · apply ensures_ite.2
    refine ⟨fun _ => ⟨.of_quiet .nil, hs⟩, fun _ => ?_⟩
    exact yields_appendAdlFillsFrom context markPrices input price hkind hid _ _ _ s hs

end Adl
end PerpexEngine
