import PerpexEngine.Broker.Commits

/-! The cycle of a worker around each record, said once: a relation that every call keeps holds
wherever the worker ends. -/
namespace PerpexEngine
open Program

/-- Where a worker stands; the outputs are those still to be tried, and the flag says that none has
failed. -/
inductive CycleStage where
  | idle
  | polled (record : ConsumedRecord)
  | publishing (record : ConsumedRecord) (outputs : List EngineOutputRecord) (clean : Bool)
  | checkpointed (record : ConsumedRecord)
  | stopped

section Rule
variable {σ : Type} {env : Environment σ} {J : CycleStage → EngineAppState σ → Prop}
  {s : EngineAppState σ} {record : ConsumedRecord}

namespace EngineAppState

/-- The state after a call that is noted. -/
def after (s : EngineAppState σ) (world : σ) (action : AppAction) : EngineAppState σ :=
  { s with world := world, journal := s.journal ++ [action] }

def inWorld (s : EngineAppState σ) (world : σ) : EngineAppState σ := { s with world := world }

end EngineAppState

/-- What each call of the worker keeps, in the stage where it is made. -/
structure CycleRule (env : Environment σ) (J : CycleStage → EngineAppState σ → Prop) : Prop where
  asked : ∀ s, J .idle s → J .idle (s.inWorld (env.stopRequested s.world).2)
  nothing : ∀ s, J .idle s → (∀ record, (env.poll s.world).1 ≠ .ok (some record)) →
    J .idle (s.inWorld (env.poll s.world).2)
  polled : ∀ s record, J .idle s → (env.poll s.world).1 = .ok (some record) →
    J (.polled record) (s.after (env.poll s.world).2 (.polled record))
  threw : ∀ s record message rt, J (.polled record) s →
    s.runtime.step (.input record.inbound (env.parse record.value) .live) = (.error message, rt) →
    J (.polled record) { s with runtime := rt }
  processed : ∀ s record result rt, J (.polled record) s →
    s.runtime.step (.input record.inbound (env.parse record.value) .live) = (.ok result, rt) →
    J (.publishing record result.outputs true)
      { s with runtime := rt, journal := s.journal ++ [.processed record result] }
  produced : ∀ s record output outputs clean,
    J (.publishing record (output :: outputs) clean) s →
    J (.publishing record outputs (clean && (env.produce output.request s.world).1 = .ok))
      (s.after (env.produce output.request s.world).2
        (.produced output.request (env.produce output.request s.world).1))
  hooked : ∀ s record, J (.publishing record [] true) s →
    J (if (env.preCommitHook record s.runtime s.world).1 = .ok then .checkpointed record
        else .stopped)
      (s.after (env.preCommitHook record s.runtime s.world).2
        (.hooked record (env.preCommitHook record s.runtime s.world).1))
  committed : ∀ s record, J (.checkpointed record) s →
    J (if (env.commit record.sourceOffset s.world).1 = .ok then .idle else .stopped)
      (s.after (env.commit record.sourceOffset s.world).2
        (.committed record.sourceOffset (env.commit record.sourceOffset s.world).1))
  known : ∀ s offsets, J .idle s → J .idle { s with committedOffsets := offsets }

/-- The relation holds in some stage. -/
def Somewhere (J : CycleStage → EngineAppState σ → Prop) (s : EngineAppState σ) : Prop :=
  ∃ stage, J stage s

theorem ensures_returned_ok {Q : Option Text → EngineAppState σ → Prop}
    {E : EngineAppState σ → Prop} : Ensures CallResult.ok.returned s Q E ↔ Q none s := Iff.rfl

namespace CycleRule

theorem publishRecords (rule : CycleRule env J) (records : List EngineOutputRecord)
    (published : EnginePublishResult)
    (h : J (.publishing record records published.failures.isEmpty) s) :
    Ensures (publishRecords env records published) s
      (fun published' s' => J (.publishing record [] published'.failures.isEmpty) s')
      (Somewhere J) := by
  induction records generalizing s published with
  | nil => exact h
  | cons output records ih =>
    unfold PerpexEngine.publishRecords produceRecord
    simp only [ensures_bind, ensures_inWorld, ensures_note]
    have hnext := rule.produced s record output records _ h
    generalize env.produce output.request s.world = reply at hnext ⊢
    obtain ⟨outcome, world⟩ := reply
    cases outcome with
    | ok =>
      refine ih (published.attempt output.request none) ?_
      rwa [decide_eq_true rfl, Bool.and_true] at hnext
    | error message =>
      refine ih (published.attempt output.request (some message)) ?_
      have hfailed : (published.attempt output.request (some message)).failures.isEmpty = false := by
        simp [EnginePublishResult.attempt]
      rw [decide_eq_false (by simp), Bool.and_false] at hnext
      rwa [hfailed]
    | threw message => exact ⟨_, hnext⟩

theorem publish (rule : CycleRule env J) {result : EngineProcessResult}
    (h : J (.publishing record result.outputs true) s) (hquiet : result.QuietUnlessProcessed) :
    Ensures (publish env result) s
      (fun published s' => J (.publishing record [] published.failures.isEmpty) s')
      (Somewhere J) := by
  unfold PerpexEngine.publish
  apply ensures_ite.2
  refine ⟨fun hstatus => ?_, fun _ => rule.publishRecords _ _ h⟩
  have hne : result.status ≠ .processed := by
    rcases hstatus with hstatus | hstatus <;> rw [hstatus] <;> decide
  obtain ⟨hreplies, hevents⟩ := hquiet hne
  have hnone : result.outputs = [] := by
    simp [EngineProcessResult.outputs, hreplies, hevents]
  rwa [hnone] at h

theorem checkpointAndCommit (rule : CycleRule env J) (h : J (.publishing record [] true) s) :
    Ensures (checkpointAndCommit env record) s
      (fun outcome s' => Somewhere J s' ∧ (outcome.1.Goes → J .idle s'))
      (Somewhere J) := by
  unfold PerpexEngine.checkpointAndCommit runPreCommitHook
  simp only [ensures_bind, ensures_get, ensures_inWorld, ensures_note, ensures_pure]
  have hhooked := rule.hooked s record h
  generalize env.preCommitHook record s.runtime s.world = reply at hhooked ⊢
  obtain ⟨outcome, world⟩ := reply
  cases outcome with
  | error message => exact ⟨⟨_, hhooked⟩, False.elim⟩
  | threw message => exact ⟨⟨_, hhooked⟩, False.elim⟩
  | ok =>
    unfold CallResult.caught commitOffset
    simp only [ensures_bind, ensures_inWorld, ensures_note]
    have hcommitted : J
        (if (env.commit record.sourceOffset world).1 = .ok then .idle else .stopped)
        ((s.after world (.hooked record .ok)).after (env.commit record.sourceOffset world).2
          (.committed record.sourceOffset (env.commit record.sourceOffset world).1)) :=
      rule.committed _ record hhooked
    generalize env.commit record.sourceOffset world = reply at hcommitted ⊢
    obtain ⟨outcome, world'⟩ := reply
    cases outcome with
    | error message => exact ⟨⟨_, hcommitted⟩, False.elim⟩
    | threw message => exact ⟨_, hcommitted⟩
    | ok =>
      apply ensures_returned_ok.2
      unfold markCommitted
      rw [ensures_bind, ensures_modify, ensures_pure]
      have hidle : J .idle ((s.after world (.hooked record .ok)).after world'
          (.committed record.sourceOffset .ok)) := hcommitted
      split_ifs
      · exact ⟨⟨_, hidle⟩, fun _ => hidle⟩
      · exact ⟨⟨_, rule.known _ _ hidle⟩, fun _ => rule.known _ _ hidle⟩

theorem settleRecord (rule : CycleRule env J) {result : EngineProcessResult}
    {published : EnginePublishResult}
    (h : J (.publishing record [] published.failures.isEmpty) s) :
    Ensures (settleRecord env record result published) s
      (fun outcome s' => Somewhere J s' ∧ (outcome.1.Goes → J .idle s')) (Somewhere J) := by
  unfold PerpexEngine.settleRecord
  split
  · exact ⟨⟨_, h⟩, False.elim⟩
  · rename_i hnone
    rw [hnone, List.isEmpty_nil] at h
    rw [ensures_bind, ensures_get]
    apply ensures_ite.2
    exact ⟨fun _ => ⟨⟨_, h⟩, False.elim⟩, fun _ => rule.checkpointAndCommit h⟩

theorem processRecord (rule : CycleRule env J) (h : J (.polled record) s) :
    Ensures (processRecord env record) s (fun outcome s' => match outcome with
      | .ok result => result.QuietUnlessProcessed ∧ J (.publishing record result.outputs true) s'
      | .error _ => J (.polled record) s') fun _ => False := by
  unfold PerpexEngine.processRecord
  rw [ensures_bind, ensures_get]
  dsimp only
  have hquiet := process_quiet record.inbound (env.parse record.value) s.runtime
  rcases hstep : s.runtime.step (.input record.inbound (env.parse record.value) .live) with
    ⟨message | result, rt⟩
  · exact rule.threw s record message rt h hstep
  · exact ⟨hquiet.returned hstep, rule.processed s record result rt h hstep⟩

theorem consume (rule : CycleRule env J) (guard : EngineInputGuardConfig)
    (h : J (.polled record) s) : Ensures (consume env guard record) s
      (fun outcome s' => Somewhere J s' ∧ (outcome.ok = true → J .idle s')) (Somewhere J) := by
  unfold PerpexEngine.consume
  split
  · rename_i status error hcheck
    exact ⟨⟨_, h⟩, fun hok => absurd (consumedResult_ok.1 hok) (checkSource_stops hcheck)⟩
  · rw [ensures_bind]
    refine (rule.processRecord h).mono ?_ fun _ => False.elim
    rintro (message | result) t ht
    · exact ⟨⟨_, ht⟩, fun hok => (consumedResult_ok.1 hok).elim⟩
    · dsimp only
      rw [ensures_bind]
      refine (rule.publish ht.2 ht.1).mono (fun published u hu => ?_) fun _ hu => hu
      rw [ensures_bind]
      refine (rule.settleRecord hu).mono (fun outcome v hv => ?_) fun _ hv => hv
      exact ⟨hv.1, fun hok => hv.2 (consumedResult_ok.1 hok)⟩

theorem pollOnce (rule : CycleRule env J) (guard : EngineInputGuardConfig) (h : J .idle s) :
    Ensures (pollOnce env guard) s
      (fun outcome s' => Somewhere J s' ∧ (outcome.ok = true → J .idle s')) (Somewhere J) := by
  unfold PerpexEngine.pollOnce
  rw [ensures_bind, ensures_inWorld]
  rcases hpoll : (env.poll s.world).1 with message | _ | record
  · exact ⟨_, rule.nothing s h (by simp [hpoll])⟩
  · have hidle := rule.nothing s h (by simp [hpoll])
    exact ⟨⟨_, hidle⟩, fun _ => hidle⟩
  · exact rule.consume guard (rule.polled s record h hpoll)

/-- However many turns the loop takes. -/
theorem workerLoop (rule : CycleRule env J) (config : EngineWorkerConfig) (turns pollCount : ℕ)
    (h : J .idle s) : Ensures (workerLoop env config turns pollCount) s
      (fun _ s' => Somewhere J s') (Somewhere J) := by
  induction turns generalizing s pollCount with
  | zero => exact ⟨_, h⟩
  | succ turns ih =>
    unfold PerpexEngine.workerLoop
    rw [ensures_bind, ensures_inWorld]
    apply ensures_ite.2
    refine ⟨fun _ => ⟨_, rule.asked s h⟩, fun _ => ?_⟩
    rw [ensures_bind]
    refine (rule.pollOnce config.guard (rule.asked s h)).mono (fun outcome t ht => ?_) fun _ ht => ht
    apply ensures_ite.2
    exact ⟨fun hok => ih _ (ht.2 hok), fun _ => ht.1⟩

end CycleRule
end Rule
end PerpexEngine
