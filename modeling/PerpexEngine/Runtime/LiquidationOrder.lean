import PerpexEngine.Lib.Ghost
import PerpexEngine.Lib.Ranked
import PerpexEngine.Runtime.LiquidationReplies
import PerpexEngine.Runtime.RiskStates
import Mathlib.Data.Prod.Lex

/-! The order in which a trigger attempts the liquidatable positions of its market. -/
namespace PerpexEngine
open Program

/-- A candidate is an open position of the market whose risk entry says it is liquidatable. -/
structure AutomaticLiquidationCandidate.Stands (c : AutomaticLiquidationCandidate)
    (marketId : MarketId) (ledger : Ledger) : Prop where
  market : c.key.marketId = marketId
  position : ledger.positions[c.key]? = some c.position
  risk : ledger.riskStates[c.key]? = some c.risk
  positionOpen : c.position.signedQuantity ≠ 0
  riskOpen : c.risk.signedQuantity ≠ 0
  liquidatable : c.risk.status = .liquidatable
  notional : c.notional = absQuantity c.position.signedQuantity *
    if 0 < c.risk.markPrice then c.risk.markPrice else c.position.averageEntryPrice

/-- The position at a key is open and liquidatable. -/
def Ledger.Liquidatable (ledger : Ledger) (key : PositionRiskKey) : Prop :=
  ∃ c : AutomaticLiquidationCandidate, c.Stands key.marketId ledger ∧ c.key = key

/-- While risk states repeat their positions, the status decides. -/
theorem RiskConsistent.liquidatable_iff {markPrices : MarkPrices} {ledger : Ledger}
    (h : RiskConsistent markPrices ledger) (key : PositionRiskKey) :
    ledger.Liquidatable key ↔
      ∃ risk, ledger.riskStates[key]? = some risk ∧ risk.status = .liquidatable := by
  constructor
  · rintro ⟨c, hc, rfl⟩
    exact ⟨c.risk, hc.risk, hc.liquidatable⟩
  · rintro ⟨risk, hrisk, hstatus⟩
    have hkey := h key
    rw [hrisk] at hkey
    cases hposition : ledger.positions[key]? with
    | none =>
      rw [hposition] at hkey
      cases hkey
    | some position =>
      rw [hposition] at hkey
      cases hkey with
      | some hagrees =>
        have hopen : position.signedQuantity ≠ 0 := by
          intro hzero
          rw [hagrees.status, if_pos hzero] at hstatus
          cases hstatus
        refine ⟨⟨key, position, risk, absQuantity position.signedQuantity *
          if 0 < risk.markPrice then risk.markPrice else position.averageEntryPrice⟩, ?_, rfl⟩
        exact ⟨rfl, hposition, hrisk, hopen, hagrees.signedQuantity ▸ hopen, hstatus, rfl⟩

/-- Lower margin ratio, lower equity, larger notional, lower user id first. -/
def AutomaticLiquidationCandidate.rank (c : AutomaticLiquidationCandidate) :
    ℤ ×ₗ ℤ ×ₗ ℤ ×ₗ ℤ :=
  toLex (c.risk.marginRatio, toLex (c.risk.equity, toLex (-c.notional, c.key.userId)))

theorem AutomaticLiquidationCandidate.before_iff (left right : AutomaticLiquidationCandidate) :
    left.before right = true ↔ left.rank < right.rank := by
  unfold before rank
  simp only [Prod.Lex.toLex_lt_toLex]
  split_ifs <;> grind

section Candidates
variable {marketId : MarketId} {ledger : Ledger} {attempted : List PositionRiskKey}

/-- The candidate of one risk entry. -/
def automaticLiquidationCandidateOf (marketId : MarketId) (ledger : Ledger)
    (attempted : List PositionRiskKey) :
    PositionRiskKey × IsolatedRiskState → Option AutomaticLiquidationCandidate :=
  fun (key, risk) =>
    if key.marketId ≠ marketId ∨ risk.status ≠ .liquidatable ∨ risk.signedQuantity = 0 ∨
        key ∈ attempted then none
    else
      match ledger.positions[key]? with
      | none => none
      | some position =>
        if position.signedQuantity = 0 then none
        else
          let price := if 0 < risk.markPrice then risk.markPrice else position.averageEntryPrice
          some ⟨key, position, risk, absQuantity position.signedQuantity * price⟩

theorem automaticLiquidationCandidatesFor_eq :
    automaticLiquidationCandidatesFor marketId ledger attempted =
      (ledger.riskStates.toList.filterMap
        (automaticLiquidationCandidateOf marketId ledger attempted)).insertionSort
          fun left right => left.before right = true := rfl

theorem automaticLiquidationCandidateOf_eq_some {entry : PositionRiskKey × IsolatedRiskState}
    {c : AutomaticLiquidationCandidate} (hentry : entry ∈ ledger.riskStates.toList) :
    automaticLiquidationCandidateOf marketId ledger attempted entry = some c ↔
      c.key = entry.1 ∧ c.Stands marketId ledger ∧ c.key ∉ attempted := by
  obtain ⟨key, risk⟩ := entry
  rw [Std.ExtTreeMap.mem_toList_iff_getElem?_eq_some] at hentry
  unfold automaticLiquidationCandidateOf
  constructor
  · intro hc
    dsimp only at hc
    split at hc
    · cases hc
    · rename_i hskip
      split at hc
      · cases hc
      · rename_i position hposition
        split at hc
        · cases hc
        · rename_i hopen
          cases hc
          push Not at hskip
          obtain ⟨hmarket, hstatus, hrisk, hnew⟩ := hskip
          exact ⟨rfl, ⟨hmarket, hposition, hentry, hopen, hrisk, hstatus, rfl⟩, hnew⟩
  · rintro ⟨rfl, hc, hnew⟩
    have hrisk : c.risk = risk := by
      rw [hc.risk] at hentry
      exact Option.some.inj hentry
    subst hrisk
    have hskip : ¬(c.key.marketId ≠ marketId ∨ c.risk.status ≠ .liquidatable ∨
        c.risk.signedQuantity = 0 ∨ c.key ∈ attempted) := by
      push Not
      exact ⟨hc.market, hc.liquidatable, hc.riskOpen, hnew⟩
    dsimp only
    rw [if_neg hskip, hc.position]
    dsimp only
    rw [if_neg hc.positionOpen, ← hc.notional]

theorem mem_automaticLiquidationCandidatesFor {c : AutomaticLiquidationCandidate} :
    c ∈ automaticLiquidationCandidatesFor marketId ledger attempted ↔
      c.Stands marketId ledger ∧ c.key ∉ attempted := by
  rw [automaticLiquidationCandidatesFor_eq, List.mem_insertionSort, List.mem_filterMap]
  constructor
  · rintro ⟨entry, hentry, hc⟩
    exact ((automaticLiquidationCandidateOf_eq_some hentry).1 hc).2
  · rintro ⟨hc, hnew⟩
    have hentry := Std.ExtTreeMap.mem_toList_iff_getElem?_eq_some.2 hc.risk
    exact ⟨_, hentry, (automaticLiquidationCandidateOf_eq_some hentry).2 ⟨rfl, hc, hnew⟩⟩

/-- The candidates come in the order of their ranks, of which no two are equal. -/
theorem ranked_automaticLiquidationCandidatesFor : Ranked AutomaticLiquidationCandidate.rank
    (automaticLiquidationCandidatesFor marketId ledger attempted) := by
  rw [automaticLiquidationCandidatesFor_eq]
  apply Ranked.insertionSort_lt AutomaticLiquidationCandidate.before_iff
  rw [List.pairwise_filterMap]
  have hdistinct : ledger.riskStates.toList.Pairwise fun a b => ¬compare a.1 b.1 = .eq :=
    Std.ExtTreeMap.distinct_keys_toList
  refine List.Pairwise.imp_of_mem (fun {a b} ha hb hne c hc d hd heq => hne ?_) hdistinct
  obtain ⟨hckey, hcstands, -⟩ := (automaticLiquidationCandidateOf_eq_some ha).1 hc
  obtain ⟨hdkey, hdstands, -⟩ := (automaticLiquidationCandidateOf_eq_some hb).1 hd
  unfold AutomaticLiquidationCandidate.rank at heq
  simp only [toLex_inj, Prod.mk.injEq] at heq
  rw [Std.LawfulEqCmp.compare_eq_iff_eq, ← hckey, ← hdkey]
  cases hc' : c.key
  cases hd' : d.key
  have hmarket := hcstands.market.trans hdstands.market.symm
  rw [PositionRiskKey.mk.injEq]
  rw [hc', hd'] at heq hmarket
  exact ⟨heq.2.2.2, hmarket⟩

end Candidates

section Observation

/-- One attempt: the position it took, and the ledger as the latest scan had found it. -/
structure LiquidationAttempt where
  candidate : AutomaticLiquidationCandidate
  scanned : Ledger

/-- The runtime beside the attempts noted so far, the latest first. -/
structure ObservedRuntime where
  runtime : EngineRuntime
  attempts : List LiquidationAttempt

abbrev ObservedM := Program Text ObservedRuntime

def onRuntime {α : Type} (m : RuntimeM α) : ObservedM α :=
  Program.zoom ObservedRuntime.runtime (fun o rt => { o with runtime := rt }) m

def ObservedRuntime.note (attempt : LiquidationAttempt) (o : ObservedRuntime) : ObservedRuntime :=
  { o with attempts := attempt :: o.attempts }

/-- `attemptCandidates`, with a note of each attempt. -/
def observeCandidates (source : InboundEngineRecord) (sourceInputId : Option Text)
    (scanned : Ledger) : List AutomaticLiquidationCandidate → LiquidationAttempts →
      ObservedM (EngineProcessResult × Bool × LiquidationAttempts)
  | [], progress => pure (.new, false, progress)
  | candidate :: candidates, progress =>
    if maxAutomaticLiquidationAttemptsPerTrigger ≤ progress.attempts then
      pure (.new, false, progress)
    else do
      let progress : LiquidationAttempts :=
        ⟨candidate.key :: progress.attempted, progress.attempts + 1⟩
      modify (ObservedRuntime.note ⟨candidate, scanned⟩)
      let execution ← onRuntime (executeLiquidation source
        (automaticLiquidationInput source sourceInputId candidate progress.attempts) false)
      if execution.events.isEmpty then
        let (rest, shouldRescan, progress) ←
          observeCandidates source sourceInputId scanned candidates progress
        pure (execution ++ rest, shouldRescan, progress)
      else pure (execution, true, progress)

/-- `liquidationRounds`, with a note of each attempt. -/
def observeRounds (source : InboundEngineRecord) (sourceInputId : Option Text)
    (marketId : MarketId) : ℕ → LiquidationAttempts → ObservedM EngineProcessResult
  | 0, _ => pure .new
  | rounds + 1, progress =>
    if maxAutomaticLiquidationAttemptsPerTrigger ≤ progress.attempts then pure .new
    else do
      let rt ← onRuntime get
      let candidates := automaticLiquidationCandidatesFor marketId rt.ledger progress.attempted
      if candidates.isEmpty then pure .new
      else
        let (result, shouldRescan, progress) ←
          observeCandidates source sourceInputId rt.ledger candidates progress
        if shouldRescan then
          let rest ← observeRounds source sourceInputId marketId rounds progress
          pure (result ++ rest)
        else pure result

/-- `evaluateAutomaticLiquidationsForMarket`, with a note of each attempt. -/
def observeAutomaticLiquidationsForMarket (marketId : MarketId) (source : InboundEngineRecord)
    (sourceInputId : Option Text) : ObservedM EngineProcessResult :=
  observeRounds source sourceInputId marketId
    (maxAutomaticLiquidationAttemptsPerTrigger + 1) ⟨[], 0⟩

variable (source : InboundEngineRecord) (sourceInputId : Option Text) (marketId : MarketId)

theorem onRuntime_erases {α : Type} (m : RuntimeM α) :
    Erases ObservedRuntime.runtime (onRuntime m) m := Erases.zoom fun _ _ => rfl

theorem observeCandidates_erases (scanned : Ledger)
    (candidates : List AutomaticLiquidationCandidate) (progress : LiquidationAttempts) :
    Erases ObservedRuntime.runtime
      (observeCandidates source sourceInputId scanned candidates progress)
      (attemptCandidates source sourceInputId candidates progress) := by
  induction candidates generalizing progress with
  | nil => exact Erases.pure _
  | cons candidate candidates ih =>
    unfold observeCandidates attemptCandidates
    apply Erases.ite
    · exact Erases.pure _
    · apply Erases.note (f := ObservedRuntime.note ⟨candidate, scanned⟩) fun _ => rfl
      refine (onRuntime_erases _).bind fun execution => ?_
      apply Erases.ite
      · exact (ih _).bind fun _ => Erases.pure _
      · exact Erases.pure _

theorem observeRounds_erases (rounds : ℕ) (progress : LiquidationAttempts) :
    Erases ObservedRuntime.runtime (observeRounds source sourceInputId marketId rounds progress)
      (liquidationRounds source sourceInputId marketId rounds progress) := by
  induction rounds generalizing progress with
  | zero => exact Erases.pure _
  | succ rounds ih =>
    unfold observeRounds liquidationRounds
    apply Erases.ite
    · exact Erases.pure _
    · refine (onRuntime_erases _).bind fun rt => ?_
      apply Erases.ite
      · exact Erases.pure _
      · refine (observeCandidates_erases _ _ _ _ _).bind fun attempted => ?_
        apply Erases.ite
        · exact (ih _).bind fun _ => Erases.pure _
        · exact Erases.pure _

end Observation

/-- A liquidation that emits nothing leaves the ledger as it is. -/
theorem executeLiquidation_quiet (record : InboundEngineRecord) (input : LiquidatePositionInput)
    (emitReplies : Bool) (rt : EngineRuntime) :
    Ensures (executeLiquidation record input emitReplies) rt
      (fun a t => a.events = [] → t.ledger = rt.ledger) fun _ => True := by
  unfold executeLiquidation
  rw [ensures_bind, ensures_get]
  dsimp only
  split
  · exact fun _ => rfl
  · split
    · apply ensures_ite.2
      refine ⟨fun _ _ => rfl, fun _ => ?_⟩
      rw [ensures_bind, ensures_liftExcept]
      refine ⟨fun orderId _ => ?_, fun _ _ => trivial⟩
      rw [ensures_bind, ensures_liftExcept]
      refine ⟨fun mapped _ => ?_, fun _ _ => trivial⟩
      rw [ensures_bind]
      refine (ensures_askBook _ _).mono (fun coreEvents u hu => ?_) fun _ _ => trivial
      apply ensures_ite.2
      refine ⟨fun _ _ => hu.2, fun _ => ?_⟩
      refine (runLiquidation_reported record input _ _ _ _ _ _).andThen fun a t ha => ?_
      rw [ensures_pure]
      intro hquiet
      obtain ⟨⟨event, hevent, -⟩, -⟩ := ha
      have hevents : (a.repliesIf emitReplies).events = a.events := by
        unfold EngineProcessResult.repliesIf
        split_ifs <;> rfl
      rw [← hevents, hquiet] at hevent
      cases hevent
    · trivial

section Order
variable {marketId : MarketId} {ledger : Ledger} {c d : AutomaticLiquidationCandidate}
  {progress : LiquidationAttempts} {o : ObservedRuntime}

theorem AutomaticLiquidationCandidate.Stands.ext (hc : c.Stands marketId ledger)
    (hd : d.Stands marketId ledger) (hkey : c.key = d.key) : c = d := by
  obtain ⟨key, position, risk, notional⟩ := c
  obtain ⟨key', position', risk', notional'⟩ := d
  have hposition := hc.position
  have hrisk := hc.risk
  have hnotional := hc.notional
  dsimp only at hkey hposition hrisk hnotional
  subst hkey
  have hposition' : some position' = some position := hd.position.symm.trans hposition
  have hrisk' : some risk' = some risk := hd.risk.symm.trans hrisk
  cases hposition'
  cases hrisk'
  have hnotional' : notional = notional' := hnotional.trans hd.notional.symm
  rw [hnotional']

def attemptedKeys (attempts : List LiquidationAttempt) : List PositionRiskKey :=
  attempts.map (·.candidate.key)

/-- Each attempt took, of the liquidatable positions of the latest scan that were not attempted
before, the one of the least rank. -/
inductive AttemptedInOrder (marketId : MarketId) : List LiquidationAttempt → Prop
  | nil : AttemptedInOrder marketId []
  | cons {attempt : LiquidationAttempt} {earlier : List LiquidationAttempt}
    (stands : attempt.candidate.Stands marketId attempt.scanned)
    (new : attempt.candidate.key ∉ attemptedKeys earlier)
    (first : ∀ c : AutomaticLiquidationCandidate, c.Stands marketId attempt.scanned →
      c.key ∉ attemptedKeys earlier → c ≠ attempt.candidate → attempt.candidate.rank < c.rank)
    (h : AttemptedInOrder marketId earlier) : AttemptedInOrder marketId (attempt :: earlier)

theorem AttemptedInOrder.nodup {attempts : List LiquidationAttempt}
    (h : AttemptedInOrder marketId attempts) : (attemptedKeys attempts).Nodup := by
  induction h with
  | nil => exact List.nodup_nil
  | cons _ new _ _ ih => exact List.nodup_cons.2 ⟨new, ih⟩

/-- The notes and the counters of the loops agree. -/
structure Noted (marketId : MarketId) (progress : LiquidationAttempts) (o : ObservedRuntime) :
    Prop where
  attempted : progress.attempted = attemptedKeys o.attempts
  attempts : progress.attempts = o.attempts.length
  inOrder : AttemptedInOrder marketId o.attempts
  atMost : o.attempts.length ≤ maxAutomaticLiquidationAttemptsPerTrigger

/-- Nothing liquidatable was left out, unless the attempts ran out. -/
def ObservedRuntime.Exhausted (o : ObservedRuntime) (marketId : MarketId) : Prop :=
  o.attempts.length < maxAutomaticLiquidationAttemptsPerTrigger →
    ∀ c : AutomaticLiquidationCandidate, c.Stands marketId o.runtime.ledger →
      c.key ∈ attemptedKeys o.attempts

theorem Noted.note {candidate : AutomaticLiquidationCandidate}
    {candidates : List AutomaticLiquidationCandidate} (h : Noted marketId progress o)
    (hmore : ¬maxAutomaticLiquidationAttemptsPerTrigger ≤ progress.attempts)
    (hranked : Ranked AutomaticLiquidationCandidate.rank (candidate :: candidates))
    (hmem : ∀ c, c ∈ candidate :: candidates ↔
      c.Stands marketId ledger ∧ c.key ∉ progress.attempted) :
    Noted marketId ⟨candidate.key :: progress.attempted, progress.attempts + 1⟩
      (o.note ⟨candidate, ledger⟩) where
  attempted := congrArg (candidate.key :: ·) h.attempted
  attempts := congrArg (· + 1) h.attempts
  inOrder := by
    obtain ⟨hstands, hnew⟩ := (hmem candidate).1 List.mem_cons_self
    rw [h.attempted] at hmem hnew
    refine .cons hstands hnew (fun c hc hcnew hne => ?_) h.inOrder
    rcases List.mem_cons.1 ((hmem c).2 ⟨hc, hcnew⟩) with heq | hlater
    · exact absurd heq hne
    · exact hranked.head_lt hlater
  atMost := by
    rw [h.attempts] at hmore
    exact Nat.succ_le_of_lt (not_le.1 hmore)

theorem mem_candidates_tail {candidate : AutomaticLiquidationCandidate}
    {candidates : List AutomaticLiquidationCandidate} {attempted : List PositionRiskKey}
    (hranked : Ranked AutomaticLiquidationCandidate.rank (candidate :: candidates))
    (hmem : ∀ c, c ∈ candidate :: candidates ↔ c.Stands marketId ledger ∧ c.key ∉ attempted)
    (c : AutomaticLiquidationCandidate) :
    c ∈ candidates ↔ c.Stands marketId ledger ∧ c.key ∉ candidate.key :: attempted := by
  have hstands := ((hmem candidate).1 List.mem_cons_self).1
  rw [List.mem_cons, not_or]
  constructor
  · intro hc
    obtain ⟨hcstands, hcnew⟩ := (hmem c).1 (List.mem_cons_of_mem _ hc)
    refine ⟨hcstands, fun heq => ?_, hcnew⟩
    rw [hcstands.ext hstands heq] at hc
    exact lt_irrefl _ (hranked.head_lt hc)
  · rintro ⟨hcstands, hne, hcnew⟩
    rcases List.mem_cons.1 ((hmem c).2 ⟨hcstands, hcnew⟩) with rfl | hc
    · exact absurd rfl hne
    · exact hc

end Order

section Loops
variable (source : InboundEngineRecord) (sourceInputId : Option Text) {marketId : MarketId}

/-- What holds of the notes wherever the loops stop, also by throwing. -/
def ObservedRuntime.Kept (marketId : MarketId) (o : ObservedRuntime) : Prop :=
  AttemptedInOrder marketId o.attempts ∧
    o.attempts.length ≤ maxAutomaticLiquidationAttemptsPerTrigger

theorem observed_execution (input : LiquidatePositionInput) (o : ObservedRuntime) :
    Ensures (onRuntime (executeLiquidation source input false)) o
      (fun a o' => o'.attempts = o.attempts ∧
        (a.events = [] → o'.runtime.ledger = o.runtime.ledger))
      fun o' => o'.attempts = o.attempts := by
  have hkept : ∀ t : EngineRuntime, ({ o with runtime := t } : ObservedRuntime).attempts =
    o.attempts := fun _ => rfl
  unfold onRuntime
  rw [ensures_zoom]
  exact (executeLiquidation_quiet source input false o.runtime).mono
    (fun a t ha => ⟨hkept t, ha⟩) fun t _ => hkept t

theorem observeCandidates_inOrder (scanned : Ledger)
    (candidates : List AutomaticLiquidationCandidate) (progress : LiquidationAttempts)
    (o : ObservedRuntime) (h : Noted marketId progress o) (hscanned : o.runtime.ledger = scanned)
    (hranked : Ranked AutomaticLiquidationCandidate.rank candidates)
    (hmem : ∀ c, c ∈ candidates ↔ c.Stands marketId scanned ∧ c.key ∉ progress.attempted) :
    Ensures (observeCandidates source sourceInputId scanned candidates progress) o
      (fun a o' => Noted marketId a.2.2 o' ∧ (a.2.1 = true → progress.attempts < a.2.2.attempts) ∧
        (a.2.1 = false → o'.Exhausted marketId))
      fun o' => o'.Kept marketId := by
  induction candidates generalizing progress o with
  | nil =>
    refine ⟨h, nofun, fun _ _ c hc => ?_⟩
    rw [hscanned] at hc
    by_contra hnew
    rw [← h.attempted] at hnew
    cases (hmem c).2 ⟨hc, hnew⟩
  | cons candidate candidates ih =>
    unfold observeCandidates
    apply ensures_ite.2
    refine ⟨fun hspent => ?_, fun hmore => ?_⟩
    · refine ⟨h, nofun, fun _ hless => ?_⟩
      rw [← h.attempts] at hless
      exact absurd hspent (not_le.2 hless)
    · have hnoted := h.note hmore hranked hmem
      rw [ensures_bind, ensures_modify, ensures_bind]
      refine (observed_execution source _ _).mono (fun a o' ha => ?_) fun o' ho' => ?_
      · obtain ⟨hattempts, hquiet⟩ := ha
        have hnoted' : Noted marketId ⟨candidate.key :: progress.attempted, progress.attempts + 1⟩
            o' := by
          constructor
          · exact hattempts ▸ hnoted.attempted
          · exact hattempts ▸ hnoted.attempts
          · exact hattempts ▸ hnoted.inOrder
          · exact hattempts ▸ hnoted.atMost
        apply ensures_ite.2
        refine ⟨fun hempty => ?_, fun _ => ?_⟩
        · rw [ensures_bind]
          refine (ih _ _ hnoted' ?_ hranked.tail (mem_candidates_tail hranked hmem)).mono
            (fun b o'' hb => ?_) fun _ hthrown => hthrown
          · exact (hquiet (List.isEmpty_iff.1 hempty)).trans hscanned
          · obtain ⟨hb, hless, hexhausted⟩ := hb
            exact ⟨hb, fun hrescan => Nat.lt_of_succ_lt (hless hrescan), hexhausted⟩
        · exact ⟨hnoted', fun _ => Nat.lt_succ_self _, nofun⟩
      · unfold ObservedRuntime.Kept
        rw [ho']
        exact ⟨hnoted.inOrder, hnoted.atMost⟩

theorem observeRounds_inOrder (rounds : ℕ) (progress : LiquidationAttempts) (o : ObservedRuntime)
    (h : Noted marketId progress o)
    (hrounds : maxAutomaticLiquidationAttemptsPerTrigger < rounds + progress.attempts) :
    Ensures (observeRounds source sourceInputId marketId rounds progress) o
      (fun _ o' => o'.Kept marketId ∧ o'.Exhausted marketId) fun o' => o'.Kept marketId := by
  induction rounds generalizing progress o with
  | zero =>
    rw [Nat.zero_add, h.attempts] at hrounds
    exact absurd h.atMost (not_le.2 hrounds)
  | succ rounds ih =>
    have hkept : o.Kept marketId := ⟨h.inOrder, h.atMost⟩
    unfold observeRounds
    apply ensures_ite.2
    refine ⟨fun hspent => ⟨hkept, fun hless => ?_⟩, fun _ => ?_⟩
    · rw [← h.attempts] at hless
      exact absurd hspent (not_le.2 hless)
    · have hget : Ensures (onRuntime get) o (fun rt o' => rt = o.runtime ∧ o = o')
        fun _ => False := ⟨rfl, rfl⟩
      rw [ensures_bind]
      refine hget.mono ?_ fun _ => False.elim
      rintro _ _ ⟨rfl, rfl⟩
      apply ensures_ite.2
      refine ⟨fun hempty => ⟨hkept, fun _ c hc => ?_⟩, fun _ => ?_⟩
      · by_contra hnew
        rw [← h.attempted] at hnew
        rw [List.isEmpty_iff] at hempty
        have hmember := mem_automaticLiquidationCandidatesFor.2 ⟨hc, hnew⟩
        rw [hempty] at hmember
        cases hmember
      · rw [ensures_bind]
        refine (observeCandidates_inOrder source sourceInputId _ _ progress o h rfl
          ranked_automaticLiquidationCandidatesFor fun c =>
            mem_automaticLiquidationCandidatesFor).mono (fun a o' ha => ?_) fun _ hthrown => hthrown
        obtain ⟨hnoted, hless, hexhausted⟩ := ha
        apply ensures_ite.2
        refine ⟨fun hrescan => ?_, fun hstop => ?_⟩
        · rw [ensures_bind]
          refine (ih _ _ hnoted ?_).mono (fun _ _ hrest => hrest) fun _ hthrown => hthrown
          have hmade := hless hrescan
          omega
        · exact ⟨⟨hnoted.inOrder, hnoted.atMost⟩, hexhausted (Bool.not_eq_true _ ▸ hstop)⟩

/-- In a reachable state the liquidatable positions are those with that status. -/
theorem reachable_liquidatable_iff (config : EngineRuntimeConfig) (steps : List RuntimeStep)
    (key : PositionRiskKey) :
    ((EngineRuntime.new config).run steps).2.ledger.Liquidatable key ↔
      ∃ risk, ((EngineRuntime.new config).run steps).2.ledger.riskStates[key]? = some risk ∧
        risk.status = .liquidatable :=
  (reachable_risk_consistent config steps).liquidatable_iff key

end Loops
end PerpexEngine
