import PerpexEngine.Broker.EngineApp
import PerpexEngine.Runtime.Statuses

/-! What a worker commits: nothing before its outputs and its checkpoint, and nothing over a record
that was polled before and not committed. -/
namespace PerpexEngine
open Program

/-- Every record polled has been committed since. -/
def AllCommitted (journal : List AppAction) : Prop :=
  ∀ before record after, journal = before ++ .polled record :: after →
    .committed record.sourceOffset .ok ∈ after

/-- The commit is that of the record last polled: all its outputs were accepted and its checkpoint
was saved, a duplicate has its original committed, and so has every record polled before. -/
def CommitJustified (before : List AppAction) (request : OffsetCommitRequest) : Prop :=
  ∃ earlier record result since,
    before = earlier ++ .polled record :: .processed record result :: since ∧
    request = record.sourceOffset ∧
    (∀ output ∈ result.outputs, .produced output.request .ok ∈ since) ∧
    .hooked record .ok ∈ since ∧
    (result.status = .duplicate → ∃ original, result.duplicate = some original ∧
      .committed original.sourceOffset .ok ∈ earlier) ∧
    AllCommitted earlier ∧ ∀ other, .polled other ∉ since

/-- Every attempt to commit was justified when it was made, whatever came of it. -/
def CommitsJustified (journal : List AppAction) : Prop :=
  ∀ before request outcome after, journal = before ++ .committed request outcome :: after →
    CommitJustified before request

/-- An action between the poll of a record and its commit. -/
def AppAction.Inner : AppAction → Prop
  | polled _ => False
  | committed _ _ => False
  | _ => True

section Journal
variable {journal since : List AppAction} {action : AppAction} {record : ConsumedRecord}

/-- An action of an extended journal is the last one, or was there before. -/
theorem concat_eq_split {before after : List AppAction} {last : AppAction}
    (h : journal ++ [last] = before ++ action :: after) :
    (journal = before ∧ last = action) ∨
      ∃ after', after = after' ++ [last] ∧ journal = before ++ action :: after' := by
  rcases List.eq_nil_or_concat after with rfl | ⟨after', other, rfl⟩
  · have hlast := List.append_inj' h rfl
    simp only [List.cons.injEq, and_true] at hlast
    exact .inl hlast
  · have hlast : journal ++ [last] = (before ++ action :: after') ++ [other] := by
      simpa using h
    obtain ⟨hjournal, hother⟩ := List.append_inj' hlast rfl
    simp only [List.cons.injEq, and_true] at hother
    exact .inr ⟨after', by rw [hother, List.concat_eq_append], hjournal⟩

theorem CommitsJustified.nil : CommitsJustified [] := fun before _ _ _ h => by simp at h

theorem CommitsJustified.append_inner (h : CommitsJustified journal) (hinner : action.Inner) :
    CommitsJustified (journal ++ [action]) := by
  intro before request outcome after hsplit
  rcases concat_eq_split hsplit with ⟨-, rfl⟩ | ⟨after', -, hjournal⟩
  · exact hinner.elim
  · exact h _ _ _ _ hjournal

theorem CommitsJustified.append_polled (h : CommitsJustified journal) :
    CommitsJustified (journal ++ [.polled record]) := by
  intro before request outcome after hsplit
  rcases concat_eq_split hsplit with ⟨-, hlast⟩ | ⟨after', -, hjournal⟩
  · cases hlast
  · exact h _ _ _ _ hjournal

theorem CommitsJustified.append_committed (h : CommitsJustified journal)
    {request : OffsetCommitRequest} (hrequest : CommitJustified journal request)
    (outcome : CallResult) : CommitsJustified (journal ++ [.committed request outcome]) := by
  intro before request' outcome' after hsplit
  rcases concat_eq_split hsplit with ⟨rfl, hlast⟩ | ⟨after', -, hjournal⟩
  · cases hlast
    exact hrequest
  · exact h _ _ _ _ hjournal

theorem AllCommitted.nil : AllCommitted [] := fun before _ _ h => by simp at h

/-- A journal goes on to be settled when its last record is committed. -/
theorem AllCommitted.commit (h : AllCommitted journal) (hpolls : ∀ other, .polled other ∉ since)
    (hcommit : .committed record.sourceOffset .ok ∈ since) :
    AllCommitted (journal ++ .polled record :: since) := by
  intro before other after hsplit
  rcases List.append_eq_append_iff.1 hsplit with ⟨between, rfl, hrest⟩ | ⟨between, rfl, hrest⟩
  · cases between with
    | nil =>
      simp only [List.nil_append, List.cons.injEq, AppAction.polled.injEq] at hrest
      rw [← hrest.1, ← hrest.2]
      exact hcommit
    | cons first between =>
      simp only [List.cons_append, List.cons.injEq] at hrest
      exact absurd (hrest.2 ▸ List.mem_append_right _ List.mem_cons_self) (hpolls other)
  · cases between with
    | nil =>
      simp only [List.nil_append, List.cons.injEq, AppAction.polled.injEq] at hrest
      rw [hrest.1, hrest.2]
      exact hcommit
    | cons first between =>
      simp only [List.cons_append, List.cons.injEq] at hrest
      obtain ⟨rfl, rfl⟩ := hrest
      exact List.mem_append_left _ (h before other between rfl)

end Journal

/-- The statuses after which the loop goes on. -/
def EngineBrokerAppStatus.Goes : EngineBrokerAppStatus → Prop
  | noRecord => True
  | processed => True
  | _ => False

instance : DecidablePred EngineBrokerAppStatus.Goes := fun status => by
  cases status <;> unfold EngineBrokerAppStatus.Goes <;> infer_instance

section Turn
variable {σ : Type} {env : Environment σ} {s : EngineAppState σ} {journal since : List AppAction}
  {record : ConsumedRecord} {result : EngineProcessResult}

@[simp] theorem ensures_note {action : AppAction} {Q : Unit → EngineAppState σ → Prop}
    {E : EngineAppState σ → Prop} : Ensures (note action) s Q E ↔
      Q () { s with journal := s.journal ++ [action] } := Iff.rfl

@[simp] theorem ensures_inWorld {α : Type} {call : σ → α × σ} {Q : α → EngineAppState σ → Prop}
    {E : EngineAppState σ → Prop} : Ensures (inWorld call) s Q E ↔
      Q (call s.world).1 { s with world := (call s.world).2 } := Iff.rfl

theorem ensures_returned {outcome : CallResult} {Q : Option Text → EngineAppState σ → Prop}
    {E : EngineAppState σ → Prop} (hok : outcome = .ok → Q none s)
    (herror : ∀ message, Q (some message) s) (hthrew : E s) :
    Ensures outcome.returned s Q E := by
  cases outcome with
  | ok => exact hok rfl
  | error message => exact herror message
  | threw message => exact hthrew

/-- Between two turns: all that was polled is committed, and the worker knows nothing else as
committed. -/
structure Settled (s : EngineAppState σ) : Prop where
  justified : CommitsJustified s.journal
  committed : AllCommitted s.journal
  known : ∀ request ∈ s.committedOffsets, .committed request .ok ∈ s.journal

/-- Within a turn: a record was polled and processed, and other things than commits followed. -/
structure Consuming (journal : List AppAction) (record : ConsumedRecord)
    (result : EngineProcessResult) (since : List AppAction) (s : EngineAppState σ) : Prop where
  journal_eq : s.journal = journal ++ .polled record :: .processed record result :: since
  inner : ∀ action ∈ since, action.Inner
  justified : CommitsJustified s.journal
  committed : AllCommitted journal
  known : ∀ request ∈ s.committedOffsets, .committed request .ok ∈ journal

namespace Consuming

theorem polls (h : Consuming journal record result since s) (other : ConsumedRecord) :
    .polled other ∉ since := fun hmem => h.inner _ hmem

theorem note (h : Consuming journal record result since s) (action : AppAction)
    (hinner : action.Inner) (world : σ) :
    Consuming journal record result (since ++ [action])
      { s with world := world, journal := s.journal ++ [action] } where
  journal_eq := by
    rw [h.journal_eq]
    simp
  inner a ha := by
    rcases List.mem_append.1 ha with ha | ha
    · exact h.inner a ha
    · rw [List.mem_singleton.1 ha]
      exact hinner
  justified := h.justified.append_inner hinner
  committed := h.committed
  known := h.known

/-- Each record of the list is tried; no failure means that all of them were accepted. -/
theorem publishRecords (h : Consuming journal record result since s)
    (records : List EngineOutputRecord) (published : EnginePublishResult) :
    Ensures (publishRecords env records published) s
      (fun published' s' => ∃ more, Consuming journal record result (since ++ more) s' ∧
        (published'.failures = [] → published.failures = [] ∧
          ∀ output ∈ records, .produced output.request .ok ∈ more))
      fun s' => CommitsJustified s'.journal := by
  induction records generalizing since s published with
  | nil =>
    refine ⟨[], ?_, fun hnone => ⟨hnone, fun _ hmem => absurd hmem List.not_mem_nil⟩⟩
    rw [List.append_nil]
    exact h
  | cons output records ih =>
    unfold PerpexEngine.publishRecords produceRecord
    simp only [ensures_bind, ensures_inWorld, ensures_note]
    generalize env.produce output.request s.world = reply
    obtain ⟨outcome, world⟩ := reply
    have hnext := h.note (.produced output.request outcome) trivial world
    apply ensures_returned
    · rintro rfl
      refine (ih hnext _).mono ?_ fun _ ht => ht
      rintro published' s' ⟨more, hmore, hall⟩
      refine ⟨.produced output.request .ok :: more, ?_, fun hnone => ?_⟩
      · rwa [List.append_assoc] at hmore
      · obtain ⟨hfirst, hrest⟩ := hall hnone
        refine ⟨hfirst, fun other hother => ?_⟩
        rcases List.mem_cons.1 hother with rfl | hother
        · exact List.mem_cons_self
        · exact List.mem_cons_of_mem _ (hrest other hother)
    · intro message
      refine (ih hnext _).mono ?_ fun _ ht => ht
      rintro published' s' ⟨more, hmore, hall⟩
      refine ⟨.produced output.request outcome :: more, ?_, fun hnone => ?_⟩
      · rwa [List.append_assoc] at hmore
      · have hfailures := (hall hnone).1
        simp [EnginePublishResult.attempt] at hfailures
    · exact hnext.justified

/-- Publishing without a failure, all outputs of the result were accepted. -/
theorem publish (h : Consuming journal record result since s)
    (hquiet : result.QuietUnlessProcessed) : Ensures (publish env result) s
      (fun published s' => ∃ more, Consuming journal record result (since ++ more) s' ∧
        (published.failures = [] →
          ∀ output ∈ result.outputs, .produced output.request .ok ∈ more))
      fun s' => CommitsJustified s'.journal := by
  unfold PerpexEngine.publish
  apply ensures_ite.2
  refine ⟨fun hstatus => ⟨[], ?_, fun _ output houtput => ?_⟩, fun _ => ?_⟩
  · rwa [List.append_nil]
  · have hne : result.status ≠ .processed := by
      rcases hstatus with hstatus | hstatus <;> rw [hstatus] <;> decide
    obtain ⟨hreplies, hevents⟩ := hquiet hne
    unfold EngineProcessResult.outputs at houtput
    simp [hreplies, hevents] at houtput
  · refine (h.publishRecords result.outputs _).mono ?_ fun _ ht => ht
    rintro published s' ⟨more, hmore, hall⟩
    exact ⟨more, hmore, fun hnone => (hall hnone).2⟩

/-- The commit of a record whose outputs and checkpoint went through, and what it settles. -/
theorem commitOffset (h : Consuming journal record result since s)
    (houtputs : ∀ output ∈ result.outputs, .produced output.request .ok ∈ since)
    (hhook : .hooked record .ok ∈ since)
    (hduplicate : result.status = .duplicate → ∃ original, result.duplicate = some original ∧
      .committed original.sourceOffset .ok ∈ journal) :
    Ensures (commitOffset env record.sourceOffset) s
      (fun error s' => CommitsJustified s'.journal ∧ s'.committedOffsets = s.committedOffsets ∧
        (error = none → AllCommitted s'.journal ∧
          s'.journal = s.journal ++ [.committed record.sourceOffset .ok]))
      fun s' => CommitsJustified s'.journal := by
  unfold PerpexEngine.commitOffset
  simp only [ensures_bind, ensures_inWorld, ensures_note]
  generalize env.commit record.sourceOffset s.world = reply
  obtain ⟨outcome, world⟩ := reply
  have hrequest : CommitJustified s.journal record.sourceOffset :=
    ⟨journal, record, result, since, h.journal_eq, rfl, houtputs, hhook, hduplicate, h.committed,
      h.polls⟩
  have hjustified := h.justified.append_committed hrequest outcome
  apply ensures_returned
  · rintro rfl
    refine ⟨hjustified, rfl, fun _ => ⟨?_, rfl⟩⟩
    rw [h.journal_eq, List.append_assoc]
    refine h.committed.commit (fun other hmem => ?_) (by simp)
    simp at hmem
    exact h.polls other hmem
  · exact fun message => ⟨hjustified, rfl, by simp⟩
  · exact hjustified

theorem checkpointAndCommit (h : Consuming journal record result since s)
    (houtputs : ∀ output ∈ result.outputs, .produced output.request .ok ∈ since)
    (hduplicate : result.status = .duplicate → ∃ original, result.duplicate = some original ∧
      .committed original.sourceOffset .ok ∈ journal) :
    Ensures (checkpointAndCommit env record) s
      (fun outcome s' => CommitsJustified s'.journal ∧ (outcome.1.Goes → Settled s'))
      fun s' => CommitsJustified s'.journal := by
  unfold PerpexEngine.checkpointAndCommit runPreCommitHook
  simp only [ensures_bind, ensures_get, ensures_inWorld, ensures_note, ensures_pure]
  generalize env.preCommitHook record s.runtime s.world = reply
  obtain ⟨outcome, world⟩ := reply
  have hnext := h.note (.hooked record outcome) trivial world
  cases outcome with
  | error message => exact ⟨hnext.justified, False.elim⟩
  | threw message => exact ⟨hnext.justified, False.elim⟩
  | ok =>
    unfold CallResult.caught
    rw [ensures_bind]
    refine (hnext.commitOffset (fun output houtput => List.mem_append_left _
      (houtputs output houtput)) (by simp) hduplicate).mono ?_ fun _ ht => ht
    rintro error s' ⟨hjustified, hknown, hdone⟩
    cases error with
    | some error => exact ⟨hjustified, False.elim⟩
    | none =>
      obtain ⟨hall, hjournal⟩ := hdone rfl
      have hcommit : AppAction.committed record.sourceOffset .ok ∈ s'.journal := by
        rw [hjournal]
        simp
      have hold : ∀ request ∈ s'.committedOffsets, .committed request .ok ∈ s'.journal := by
        intro request hrequest
        rw [hjournal, hnext.journal_eq]
        rw [hknown] at hrequest
        exact List.mem_append_left _ (List.mem_append_left _ (hnext.known request hrequest))
      unfold markCommitted
      rw [ensures_bind, ensures_modify, ensures_pure]
      split_ifs
      · exact ⟨hjustified, fun _ => ⟨hjustified, hall, hold⟩⟩
      · refine ⟨hjustified, fun _ => ⟨hjustified, hall, fun request hrequest => ?_⟩⟩
        rcases List.mem_append.1 hrequest with hrequest | hrequest
        · exact hold request hrequest
        · rw [List.mem_singleton.1 hrequest]
          exact hcommit

theorem settleRecord (h : Consuming journal record result since s)
    {published : EnginePublishResult} (houtputs : published.failures = [] →
      ∀ output ∈ result.outputs, .produced output.request .ok ∈ since) :
    Ensures (settleRecord env record result published) s
      (fun outcome s' => CommitsJustified s'.journal ∧ (outcome.1.Goes → Settled s'))
      fun s' => CommitsJustified s'.journal := by
  unfold PerpexEngine.settleRecord
  split
  · exact ⟨h.justified, False.elim⟩
  · rename_i hnone
    rw [ensures_bind, ensures_get]
    apply ensures_ite.2
    refine ⟨fun _ => ⟨h.justified, False.elim⟩, fun hsafe => ?_⟩
    refine h.checkpointAndCommit (houtputs hnone) fun hstatus => ?_
    unfold duplicateSourceIsSafe at hsafe
    cases hdup : result.duplicate with
    | none => simp [hstatus, hdup] at hsafe
    | some original =>
      refine ⟨original, rfl, h.known _ ?_⟩
      simpa [hstatus, hdup] using hsafe

end Consuming

theorem consumedResult_ok {processStatus : Option EngineProcessStatus}
    {published : EnginePublishResult} {status : EngineBrokerAppStatus} {error : Text} :
    (consumedResult record processStatus published status error).ok = true ↔ status.Goes := by
  cases status <;> simp [EngineBrokerAppResult.ok, consumedResult, EngineBrokerAppStatus.Goes]

theorem checkMarket_stops {guard : EngineInputGuardConfig} {status : EngineBrokerAppStatus}
    {error : Text} (h : checkMarket env guard record = some (status, error)) : ¬status.Goes := by
  unfold checkMarket at h
  split at h
  · cases h
  · split at h
    · cases h
      exact id
    · dsimp only at h
      split at h
      · cases h
      · cases h
        exact id

theorem checkSource_stops {guard : EngineInputGuardConfig} {status : EngineBrokerAppStatus}
    {error : Text} (h : checkSource env guard record = some (status, error)) : ¬status.Goes := by
  unfold checkSource at h
  split at h
  · cases h
    exact id
  · split at h
    · cases h
      exact id
    · exact checkMarket_stops h

/-- What the runtime makes of a record is noted; if it throws, nothing is. -/
theorem ensures_processRecord : Ensures (processRecord env record) s
    (fun outcome s' => s'.committedOffsets = s.committedOffsets ∧ match outcome with
      | .ok result => result.QuietUnlessProcessed ∧
          s'.journal = s.journal ++ [.processed record result]
      | .error _ => s'.journal = s.journal) fun _ => False := by
  unfold processRecord
  rw [ensures_bind, ensures_get]
  dsimp only
  have hquiet := process_quiet record.inbound (env.parse record.value) s.runtime
  cases hstep : (s.runtime.step (.input record.inbound (env.parse record.value) .live)).1 with
  | error message => exact ⟨rfl, rfl⟩
  | ok result => exact ⟨rfl, hquiet.returned (Prod.ext hstep rfl), rfl⟩

/-- The turn of a record that was just polled: if it goes on, the record is committed. -/
theorem Settled.consume (h : Settled s) (guard : EngineInputGuardConfig) (world : σ) :
    Ensures (consume env guard record)
      { s with world := world, journal := s.journal ++ [.polled record] }
      (fun outcome s' => CommitsJustified s'.journal ∧ (outcome.ok = true → Settled s'))
      fun s' => CommitsJustified s'.journal := by
  have hjustified : CommitsJustified (s.journal ++ [.polled record]) :=
    h.justified.append_polled
  unfold PerpexEngine.consume
  split
  · rename_i status error hcheck
    exact ⟨hjustified, fun hok => absurd (consumedResult_ok.1 hok) (checkSource_stops hcheck)⟩
  · rw [ensures_bind]
    refine ensures_processRecord.mono ?_ fun _ => False.elim
    rintro (message | result) t ⟨hknown, hjournal⟩
    · have hsame : CommitsJustified t.journal := by
        dsimp only at hjournal
        rwa [hjournal]
      exact ⟨hsame, fun hok => (consumedResult_ok.1 hok).elim⟩
    · obtain ⟨hquiet, hjournal⟩ := hjournal
      have hconsuming : Consuming s.journal record result [] t := by
        refine ⟨?_, fun _ hmem => absurd hmem List.not_mem_nil, ?_, h.committed, ?_⟩
        · rw [hjournal]
          simp
        · rw [hjournal]
          exact hjustified.append_inner trivial
        · rw [hknown]
          exact h.known
      dsimp only
      rw [ensures_bind]
      refine (hconsuming.publish hquiet).mono ?_ fun _ ht => ht
      rintro published u ⟨more, hmore, houtputs⟩
      rw [ensures_bind]
      refine (hmore.settleRecord houtputs).mono ?_ fun _ ht => ht
      rintro outcome v ⟨hcommits, hgoes⟩
      exact ⟨hcommits, fun hok => hgoes (consumedResult_ok.1 hok)⟩

theorem Settled.pollOnce (h : Settled s) (guard : EngineInputGuardConfig) :
    Ensures (pollOnce env guard) s
      (fun outcome s' => CommitsJustified s'.journal ∧ (outcome.ok = true → Settled s'))
      fun s' => CommitsJustified s'.journal := by
  unfold PerpexEngine.pollOnce
  rw [ensures_bind, ensures_inWorld]
  generalize env.poll s.world = reply
  obtain ⟨polled, world⟩ := reply
  rcases polled with message | _ | record
  · exact h.justified
  · exact ⟨h.justified, fun _ => ⟨h.justified, h.committed, h.known⟩⟩
  · exact h.consume guard world

/-- However many turns the loop takes, from a settled state. -/
theorem Settled.workerLoop (h : Settled s) (config : EngineWorkerConfig) (turns pollCount : ℕ) :
    Ensures (workerLoop env config turns pollCount) s (fun _ s' => CommitsJustified s'.journal)
      fun s' => CommitsJustified s'.journal := by
  induction turns generalizing s pollCount with
  | zero => exact h.justified
  | succ turns ih =>
    unfold PerpexEngine.workerLoop
    rw [ensures_bind, ensures_inWorld]
    apply ensures_ite.2
    refine ⟨fun _ => h.justified, fun _ => ?_⟩
    have hworld : Settled { s with world := (env.stopRequested s.world).2 } :=
      ⟨h.justified, h.committed, h.known⟩
    rw [ensures_bind]
    refine (hworld.pollOnce config.guard).mono ?_ fun _ ht => ht
    rintro outcome t ⟨hjustified, hsettled⟩
    apply ensures_ite.2
    exact ⟨fun hok => ih (hsettled hok) _, fun _ => hjustified⟩

end Turn

/-- In every run of a worker, an offset is committed only after all its outputs were accepted and
its checkpoint was saved, a duplicate only after its original, and no record is passed over. -/
theorem commits_justified {σ : Type} (env : Environment σ) (config : EngineWorkerConfig) (world : σ)
    (runtime : EngineRuntime) (turns : ℕ) :
    CommitsJustified (workerJournal env config world runtime turns) := by
  have hstart : Settled (EngineAppState.start world runtime) :=
    ⟨.nil, .nil, fun _ hmem => absurd hmem List.not_mem_nil⟩
  have hloop : Ensures (workerLoop env config turns 0) (EngineAppState.start world runtime)
      (fun _ s => CommitsJustified s.journal) fun s => CommitsJustified s.journal :=
    hstart.workerLoop config turns 0
  exact hloop.whatever

end PerpexEngine
