import PerpexEngine.Core.PriceTimeRuns
import PerpexEngine.Runtime.RuntimeRuns

/-! The numbers of the events of a market: consecutive over a whole run, restarts included. -/
namespace PerpexEngine
open Program

def numbersOf (marketId : MarketId) (events : List EngineEventRecord) : List EngineSequence :=
  (events.filter (·.marketId = marketId)).map (·.engineSequence)

/-- The numbers go on from the next one, or start from an allowed first one. -/
def Continues (First : EngineSequence → Prop) (next : Option EngineSequence)
    (numbers : List EngineSequence) (next' : Option EngineSequence) : Prop :=
  match next with
  | some n => numbers = List.range' n numbers.length ∧ next' = some (n + numbers.length)
  | none => (numbers = [] ∧ next' = none) ∨ ∃ first, First first ∧
      numbers = List.range' first numbers.length ∧ next' = some (first + numbers.length)

theorem Continues.append {First : EngineSequence → Prop} {a b c : Option EngineSequence}
    {xs ys : List EngineSequence} (h : Continues First a xs b) (h' : Continues First b ys c) :
    Continues First a (xs ++ ys) c := by
  have hrange : ∀ n : EngineSequence, xs = List.range' n xs.length →
      Continues First (some (n + xs.length)) ys c →
      xs ++ ys = List.range' n (xs ++ ys).length ∧ c = some (n + (xs ++ ys).length) := by
    rintro n hxs ⟨hys, hc⟩
    rw [List.length_append, ← List.range'_append_1, ← hxs, ← hys, hc, Nat.add_assoc]
    exact ⟨rfl, rfl⟩
  cases a with
  | some n =>
    obtain ⟨hxs, rfl⟩ := h
    exact hrange n hxs h'
  | none =>
    rcases h with ⟨rfl, rfl⟩ | ⟨first, hfirst, hxs, rfl⟩
    · exact h'
    · exact Or.inr ⟨first, hfirst, hrange first hxs h'⟩

/-- The events carry the next numbers of their markets and the ids made from them. -/
structure Numbered (First : EngineSequence → Prop) (g : MarketSequenceGenerator)
    (events : List EngineEventRecord) (g' : MarketSequenceGenerator) : Prop where
  first : First g'.firstSequence
  numbers : ∀ marketId, Continues First g.nextByMarket[marketId]? (numbersOf marketId events)
    g'.nextByMarket[marketId]?
  eventId : ∀ e ∈ events, e.engineEventId = engineEventId e.marketId e.engineSequence

variable {First : EngineSequence → Prop}

theorem Numbered.nothing {g : MarketSequenceGenerator} (h : First g.firstSequence) :
    Numbered First g [] g where
  first := h
  numbers marketId := by
    unfold Continues
    split
    · rename_i hn
      exact ⟨rfl, hn⟩
    · rename_i hn
      exact Or.inl ⟨rfl, hn⟩
  eventId _ h := absurd h List.not_mem_nil

theorem Numbered.event {l : Ledger} {e : EngineEventRecord} (he : e.Next l)
    (h : First l.marketSequences.firstSequence) :
    Numbered First l.marketSequences [e] (l.marketSequences.advance e.marketId) where
  first := h
  numbers marketId := by
    unfold numbersOf MarketSequenceGenerator.advance
    rw [Std.ExtTreeMap.getElem?_insert]
    by_cases hid : e.marketId = marketId
    · subst hid
      have hpeek := he.sequence
      unfold MarketSequenceGenerator.peek at hpeek ⊢
      rw [Std.ExtTreeMap.getD_eq_getD_getElem?] at hpeek ⊢
      have hself : compare e.marketId e.marketId = .eq := Std.ReflCmp.compare_self
      rw [hself, if_pos rfl, List.filter_singleton, decide_eq_true rfl, cond_true,
        List.map_singleton, hpeek]
      cases l.marketSequences.nextByMarket[e.marketId]? with
      | some n => exact ⟨rfl, rfl⟩
      | none => exact Or.inr ⟨_, h, rfl, rfl⟩
    · rw [if_neg (mt Std.LawfulEqCmp.compare_eq_iff_eq.1 hid), List.filter_singleton,
        decide_eq_false hid]
      exact (Numbered.nothing h).numbers marketId
  eventId e' he' := by
    rw [List.mem_singleton.1 he']
    exact he.eventId

def NumberedFrom (First : EngineSequence → Prop) (g : MarketSequenceGenerator)
    (events : List EngineEventRecord) (g' : MarketSequenceGenerator) : Prop :=
  First g.firstSequence → Numbered First g events g'

theorem numberedFrom_trace (First : EngineSequence → Prop) : TraceRule (NumberedFrom First) where
  nothing _ := Numbered.nothing
  append {u v w xs ys} h h' hu := by
    have hxs := h hu
    have hys := h' hxs.first
    refine ⟨hys.first, fun marketId => ?_, fun e he => ?_⟩
    · have hnumbers := (hxs.numbers marketId).append (hys.numbers marketId)
      unfold numbersOf at hnumbers ⊢
      rw [List.filter_append, List.map_append]
      exact hnumbers
    · rcases List.mem_append.1 he with he | he
      · exact hxs.eventId e he
      · exact hys.eventId e he

theorem numberedHandler (First : EngineSequence → Prop) : HandlerRule fun rt events rt' =>
    NumberedFrom First rt.ledger.marketSequences events rt'.ledger.marketSequences :=
  .ofSequences (numberedFrom_trace First) fun _ _ he h => Numbered.event he h

theorem numberedRule (First : EngineSequence → Prop) : RunRule
    (fun config => First (MarketSequenceGenerator.new config.firstPublicSequence).firstSequence)
    fun rt events rt' =>
      NumberedFrom First rt.ledger.marketSequences events rt'.ledger.marketSequences where
  toHandlerRule := numberedHandler First
  restart rt config hconfig h := by
    have hsame := Numbered.nothing h
    exact ⟨hconfig, hsame.numbers, hsame.eventId⟩

theorem engineEventId_inj {m m' : MarketId} {n n' : EngineSequence}
    (h : engineEventId m n = engineEventId m' n') : m = m' ∧ n = n' := by
  unfold engineEventId at h
  simp only [List.append_assoc, List.append_cancel_left_eq] at h
  have hsep := not_mem_text (b := 95) (by decide) (by decide)
  obtain ⟨hm, hn⟩ := cut_inj (hsep m) (hsep m') h
  exact ⟨text_injective hm, Int.ofNat.inj (text_injective hn)⟩

/-- Ids made from market and number are distinct where the numbers of each market are. -/
theorem eventIds_nodup {events : List EngineEventRecord}
    (hids : ∀ e ∈ events, e.engineEventId = engineEventId e.marketId e.engineSequence)
    (hnumbers : ∀ marketId, (numbersOf marketId events).Nodup) :
    (events.map (·.engineEventId)).Nodup := by
  induction events with
  | nil => exact List.nodup_nil
  | cons e events ih =>
    have hrest : ∀ e' ∈ events, e'.engineEventId = engineEventId e'.marketId e'.engineSequence :=
      fun e' he' => hids e' (List.mem_cons_of_mem _ he')
    rw [List.map_cons, List.nodup_cons]
    constructor
    · intro hmem
      obtain ⟨e', he', heq⟩ := List.mem_map.1 hmem
      rw [hrest e' he', hids e List.mem_cons_self] at heq
      obtain ⟨hmarket, hnumber⟩ := engineEventId_inj heq
      have hnodup := hnumbers e.marketId
      unfold numbersOf at hnodup
      rw [List.filter_cons_of_pos (by simp), List.map_cons, List.nodup_cons] at hnodup
      apply hnodup.1
      rw [← hnumber]
      exact List.mem_map_of_mem (List.mem_filter.2 ⟨he', by simpa using hmarket⟩)
    · refine ih hrest fun marketId => (hnumbers marketId).sublist ?_
      exact ((List.sublist_cons_self e events).filter _).map _

/-- The first numbers a run may start a market with: those of its configurations. -/
def firstNumbers (config : EngineRuntimeConfig) (steps : List RuntimeStep) : Set EngineSequence :=
  { n | ∃ c : EngineRuntimeConfig, (c = config ∨ .restart c ∈ steps) ∧
    n = (MarketSequenceGenerator.new c.firstPublicSequence).firstSequence }

/-- In a live run that does not throw the events of each market are numbered one by one, and no two
events have the same id. -/
theorem events_numbered (config : EngineRuntimeConfig) (steps : List RuntimeStep)
    (hlive : ∀ s ∈ steps, s.Live)
    (hok : ∀ o ∈ ((EngineRuntime.new config).run steps).1, ∃ result, o = .ok result) :
    (∀ marketId, ∃ first ∈ firstNumbers config steps,
      numbersOf marketId (eventsOf ((EngineRuntime.new config).run steps).1) = List.range' first
        (numbersOf marketId (eventsOf ((EngineRuntime.new config).run steps).1)).length) ∧
    ((eventsOf ((EngineRuntime.new config).run steps).1).map (·.engineEventId)).Nodup := by
  obtain ⟨events, hrun, hevents⟩ := (numberedRule (firstNumbers config steps)).run
    (positive_new config) steps fun c hc => ⟨c, Or.inr hc, rfl⟩
  rw [hevents hlive hok] at hrun
  have hfirst : (MarketSequenceGenerator.new config.firstPublicSequence).firstSequence ∈
      firstNumbers config steps := ⟨config, Or.inl rfl, rfl⟩
  have hnumbered := hrun hfirst
  generalize eventsOf ((EngineRuntime.new config).run steps).1 = events at hnumbered
  have hnumbers : ∀ marketId, ∃ first ∈ firstNumbers config steps,
      numbersOf marketId events = List.range' first (numbersOf marketId events).length := by
    intro marketId
    have hnone : (EngineRuntime.new config).ledger.marketSequences.nextByMarket[marketId]? =
      none := Std.ExtTreeMap.getElem?_empty
    have hcontinues := hnumbered.numbers marketId
    rw [hnone] at hcontinues
    rcases hcontinues with ⟨hnil, -⟩ | ⟨first, hmem, hrange, -⟩
    · exact ⟨_, hfirst, by rw [hnil]; rfl⟩
    · exact ⟨first, hmem, hrange⟩
  refine ⟨hnumbers, eventIds_nodup hnumbered.eventId fun marketId => ?_⟩
  obtain ⟨first, -, hrange⟩ := hnumbers marketId
  rw [hrange]
  exact List.nodup_range'

def sampleRuntimeConfig : EngineRuntimeConfig := ⟨[sampleConfig], 7, 1, fun n => n⟩

def sampleEnvelope (n : ℕ) (userId : AdapterUserId) : CommandEnvelope :=
  ⟨ascii "req-" ++ decimal n, ascii "idem-" ++ decimal n, userId, 3⟩

/-- The samples' prices and sizes are below this. -/
instance sampleBound_neZero : NeZero 1000 := ⟨by decide⟩

theorem sample_fitsInt64 (price quantity : Fin 1000) :
    FitsInt64 (price.val : ℤ) ∧ FitsInt64 (quantity.val : ℤ) := by
  unfold FitsInt64
  omega

def samplePlaceInput (n : ℕ) (userId : AdapterUserId) (side : AdapterSide) (price : Fin 1000)
    (quantity : Fin 1000) : EngineInput :=
  ⟨.placeOrder
    { inputId := some (ascii "in-" ++ decimal n)
      envelope := sampleEnvelope n userId
      orderId := n
      reservationId := ascii "res-" ++ decimal n
      marketId := 1
      side := side
      orderType := .limit
      timeInForce := .gtc
      price := price.val
      quantity := quantity.val
      reduceOnly := false
      marginAsset := ascii "USDC"
      reservedMarginAmount := 100
      leverage := 10 }, sample_fitsInt64 price quantity⟩

/-- The `n`-th input of a run: an order. -/
def samplePlace (n : ℕ) (userId : AdapterUserId) (side : AdapterSide) (price : Fin 1000)
    (quantity : Fin 1000) : RuntimeStep :=
  .input ⟨engineInputTopic, 0, n⟩ (.ok (samplePlaceInput n userId side price quantity)) .live

def sampleMark (n : ℕ) (markPrice : AdapterPrice) : RuntimeStep :=
  .input ⟨engineInputTopic, 0, n⟩ (.ok ⟨.markPriceUpdated
    { inputId := none
      marketId := 1
      markPrice := markPrice
      indexPrice := markPrice
      sourceTimestampMs := 0
      publishedAtMs := n
      validUntilMs := 0
      sourceSequence := n
      sourceStatus := [] }, trivial⟩) .live

def sampleRuntimeSteps : List RuntimeStep :=
  [samplePlace 1 11 .long 100 10, samplePlace 2 12 .short 100 4, .restart sampleRuntimeConfig,
    sampleMark 3 95]

theorem events_numbered_sample : ∃ first ∈ firstNumbers sampleRuntimeConfig sampleRuntimeSteps,
    numbersOf 1 (eventsOf ((EngineRuntime.new sampleRuntimeConfig).run sampleRuntimeSteps).1) =
      List.range' first 11 := by
  obtain ⟨hnumbers, -⟩ := events_numbered sampleRuntimeConfig sampleRuntimeSteps
    (by decide +kernel) (by decide +kernel)
  obtain ⟨first, hfirst, hrange⟩ := hnumbers 1
  have hlength : (numbersOf 1 (eventsOf ((EngineRuntime.new sampleRuntimeConfig).run
    sampleRuntimeSteps).1)).length = 11 := by decide +kernel
  rw [hlength] at hrange
  exact ⟨first, hfirst, hrange⟩

end PerpexEngine
