import PerpexEngine.Broker.Commits
import PerpexEngine.Recovery.Checkpoint
import PerpexEngine.Runtime.EventNumbers

/-! A record that repeats an input already applied: it is harmless exactly where the worker that
polls it has committed the original since it started. -/
namespace PerpexEngine
open Program

/-- The call of an action came back well. -/
def AppAction.Succeeded : AppAction → Prop
  | produced _ outcome => outcome = .ok
  | hooked _ outcome => outcome = .ok
  | committed _ outcome => outcome = .ok
  | _ => True

section Known
variable {σ : Type} {env : Environment σ} {guard : EngineInputGuardConfig} {s s' : EngineAppState σ}

/-- The offsets taken for safe are those committed since the worker started. -/
def Knows (s : EngineAppState σ) : Prop :=
  ∀ request, request ∈ s.committedOffsets ↔ .committed request .ok ∈ s.journal

/-- The worker between two turns, started on any runtime: a new one, or one that was recovered. -/
inductive EngineAppState.Reached (env : Environment σ) (guard : EngineInputGuardConfig) :
    EngineAppState σ → Prop where
  | start (world : σ) (runtime : EngineRuntime) : Reached env guard (.start world runtime)
  | turn {s s' : EngineAppState σ} {outcome : EngineBrokerAppResult} (h : Reached env guard s)
    (hturn : (pollOnce env guard).run.run s = (.ok outcome, s')) (hgoes : outcome.ok = true) :
    Reached env guard s'

theorem EngineAppState.Reached.goesOn (h : s.Reached env guard)
    (hgoes : ((pollOnce env guard).run.run s).1.toOption.any (·.ok) = true) :
    EngineAppState.Reached env guard ((pollOnce env guard).run.run s).2 := by
  generalize hturn : (pollOnce env guard).run.run s = turned at hgoes ⊢
  obtain ⟨outcome, s'⟩ := turned
  cases outcome with
  | error message => cases hgoes
  | ok outcome => exact .turn h hturn hgoes

theorem Knows.note (h : Knows s) (action : AppAction)
    (hother : ∀ request, action ≠ .committed request .ok) (world : σ) (runtime : EngineRuntime) :
    Knows { s with world := world, runtime := runtime, journal := s.journal ++ [action] } := by
  intro request
  rw [h request, List.mem_append, List.mem_singleton]
  exact ⟨Or.inl, fun hmem => hmem.resolve_right fun heq => hother request heq.symm⟩

theorem knows_publishRecords (records : List EngineOutputRecord) (published : EnginePublishResult) :
    Yields Knows (fun _ => True) (publishRecords env records published) := by
  induction records generalizing published with
  | nil => exact .pure trivial
  | cons output records ih =>
    intro s hs
    unfold publishRecords produceRecord
    simp only [ensures_bind, ensures_inWorld, ensures_note]
    have hnext := hs.note (.produced output.request (env.produce output.request s.world).1)
      (by simp) (env.produce output.request s.world).2 s.runtime
    exact ensures_returned (fun _ => ih _ _ hnext) (fun _ => ih _ _ hnext) hnext

/-- A commit that succeeds is known from then on. -/
theorem knows_checkpointAndCommit (record : ConsumedRecord) :
    Yields Knows (fun _ => True) (checkpointAndCommit env record) := by
  intro s hs
  unfold checkpointAndCommit runPreCommitHook
  simp only [ensures_bind, ensures_get, ensures_inWorld, ensures_note, ensures_pure]
  generalize env.preCommitHook record s.runtime s.world = reply
  obtain ⟨outcome, world⟩ := reply
  have hnext := hs.note (.hooked record outcome) (by simp) world s.runtime
  cases outcome with
  | error message => exact ⟨trivial, hnext⟩
  | threw message => exact ⟨trivial, hnext⟩
  | ok =>
    unfold CallResult.caught commitOffset
    simp only [ensures_bind, ensures_inWorld, ensures_note]
    generalize env.commit record.sourceOffset world = reply
    obtain ⟨outcome, world'⟩ := reply
    cases outcome with
    | error message =>
      exact ⟨trivial, hnext.note (.committed record.sourceOffset (.error message)) (by simp)
        world' s.runtime⟩
    | threw message =>
      exact hnext.note (.committed record.sourceOffset (.threw message)) (by simp) world'
        s.runtime
    | ok =>
      refine ⟨trivial, fun request => ?_⟩
      have hbefore := hnext request
      dsimp only at hbefore ⊢
      split_ifs with hcontains
      · rw [List.contains_iff_mem] at hcontains
        rw [List.mem_append, List.mem_singleton]
        refine ⟨fun hmem => Or.inl (hbefore.1 hmem), fun hmem => ?_⟩
        rcases hmem with hmem | heq
        · exact hbefore.2 hmem
        · cases heq
          exact hcontains
      · rw [List.mem_append, List.mem_singleton, List.mem_append,
          List.mem_singleton]
        refine or_congr hbefore ⟨fun heq => by rw [heq], fun heq => ?_⟩
        cases heq
        rfl

theorem knows_processRecord (record : ConsumedRecord) :
    Yields Knows (fun _ => True) (processRecord env record) := by
  intro s hs
  unfold processRecord
  rw [ensures_bind, ensures_get]
  dsimp only
  generalize s.runtime.step (.input record.inbound (env.parse record.value) .live) = step
  obtain ⟨outcome, runtime⟩ := step
  cases outcome with
  | error message => exact ⟨trivial, hs⟩
  | ok result => exact ⟨trivial, hs.note (.processed record result) (by simp) s.world runtime⟩

theorem knows_consume (record : ConsumedRecord) :
    Yields Knows (fun _ => True) (consume env guard record) := by
  unfold consume
  split
  · exact .pure trivial
  · refine (knows_processRecord record).bind fun outcome _ => ?_
    cases outcome with
    | error message => exact .pure trivial
    | ok result =>
      have hpublish : Yields Knows (fun _ => True) (publish env result) :=
        .ite (fun _ => .pure trivial) fun _ => knows_publishRecords _ _
      refine hpublish.bind fun published _ => Yields.bind (P := fun _ => True) ?_
        fun _ _ => .pure trivial
      unfold settleRecord
      split
      · exact .pure trivial
      · refine .get fun s hs => ?_
        exact Yields.ite (fun _ => .pure trivial) (fun _ => knows_checkpointAndCommit record) s hs

theorem knows_pollOnce : Yields Knows (fun _ => True) (pollOnce env guard) := by
  intro s hs
  unfold pollOnce
  rw [ensures_bind, ensures_inWorld]
  generalize env.poll s.world = reply
  obtain ⟨polled, world⟩ := reply
  rcases polled with message | _ | record
  · exact hs
  · exact ⟨trivial, hs⟩
  · exact knows_consume record _ (hs.note (.polled record) (by simp) world s.runtime)

theorem EngineAppState.Reached.knows (h : s.Reached env guard) : Knows s := by
  induction h with
  | start world runtime => exact fun request => by simp [EngineAppState.start]
  | turn h hturn hgoes ih => exact ((knows_pollOnce _ ih).returned hturn).2

end Known

section Duplicate
variable {σ : Type} {env : Environment σ} {guard : EngineInputGuardConfig} {s : EngineAppState σ}
  {record : ConsumedRecord} {result : EngineProcessResult}

/-- The record is consumed without any output and, unless the checkpoint hook or the committer
fails, ends as processed and committed. -/
def Harmless (env : Environment σ) (guard : EngineInputGuardConfig) (record : ConsumedRecord)
    (s : EngineAppState σ) : Prop :=
  Ensures (consume env guard record) s
    (fun outcome s' => ∃ since, s'.journal = s.journal ++ since ∧
      (∀ request answer, .produced request answer ∉ since) ∧
      ((∀ action ∈ since, action.Succeeded) →
        outcome.status = .processed ∧ .committed record.sourceOffset .ok ∈ since))
    fun s' => ∃ since, s'.journal = s.journal ++ since ∧
      (∀ request answer, .produced request answer ∉ since) ∧ ∃ action ∈ since, ¬action.Succeeded

/-- A duplicate has nothing to publish; what follows depends on its original alone. -/
theorem consume_duplicate (hsource : checkSource env guard record = none)
    (hstep : (s.runtime.step (.input record.inbound (env.parse record.value) .live)).1 = .ok result)
    (hduplicate : result.status = .duplicate)
    {Q : EngineBrokerAppResult → EngineAppState σ → Prop} {E : EngineAppState σ → Prop} :
    Ensures (consume env guard record) s Q E ↔
      Ensures (if duplicateSourceIsSafe result s.committedOffsets = false then
          pure (.unsafeDuplicate, ascii "duplicate source offset has not been committed")
        else checkpointAndCommit env record)
      { s with
        runtime := (s.runtime.step (.input record.inbound (env.parse record.value) .live)).2
        journal := s.journal ++ [.processed record result] }
      (fun settled => Q (consumedResult record (some .duplicate) ⟨0, 0, []⟩ settled.1 settled.2))
      E := by
  unfold consume processRecord publish settleRecord
  rw [hsource]
  simp only [ensures_bind, ensures_get, ensures_set, hstep, ensures_note, ensures_pure, hduplicate,
    true_or, ↓reduceIte, true_and]

/-- To a worker that knows what it has committed, a duplicate is harmless if and only if the offset of
its original is among that. -/
theorem harmless_iff (h : Knows s) (hsource : checkSource env guard record = none)
    (hstep : (s.runtime.step (.input record.inbound (env.parse record.value) .live)).1 = .ok result)
    (hduplicate : result.status = .duplicate) :
    Harmless env guard record s ↔ ∃ original, result.duplicate = some original ∧
      .committed original.sourceOffset .ok ∈ s.journal := by
  have hknown : duplicateSourceIsSafe result s.committedOffsets = true ↔ ∃ original,
      result.duplicate = some original ∧ .committed original.sourceOffset .ok ∈ s.journal := by
    unfold duplicateSourceIsSafe
    cases result.duplicate with
    | none => simp
    | some original => simp [h original.sourceOffset]
  rw [← hknown, Harmless, consume_duplicate hsource hstep hduplicate]
  cases hsafe : duplicateSourceIsSafe result s.committedOffsets with
  | false =>
    refine ⟨?_, fun htrue => absurd htrue Bool.false_ne_true⟩
    rintro ⟨since, hjournal, -, hprocessed⟩
    have hsince : since = [.processed record result] := (List.append_cancel_left hjournal).symm
    subst hsince
    have hdone := hprocessed fun action haction => by
      rw [List.mem_singleton.1 haction]
      trivial
    cases hdone.1
  | true =>
    refine ⟨fun _ => rfl, fun _ => ?_⟩
    unfold checkpointAndCommit runPreCommitHook
    simp only [Bool.true_eq_false, ↓reduceIte, ensures_bind, ensures_get, ensures_inWorld,
      ensures_note, ensures_pure]
    generalize env.preCommitHook record _ _ = reply
    obtain ⟨outcome, world⟩ := reply
    have hquiet : ∀ more : List AppAction, (∀ request answer, .produced request answer ∉ more) →
        ∀ request answer, AppAction.produced request answer ∉ .processed record result ::
          .hooked record outcome :: more := by
      intro more hmore request answer hmem
      rcases List.mem_cons.1 hmem with heq | hmem
      · cases heq
      · rcases List.mem_cons.1 hmem with heq | hmem
        · cases heq
        · exact hmore request answer hmem
    have hfailed : outcome ≠ .ok → ∀ more : List AppAction,
        ¬∀ action ∈ AppAction.processed record result :: .hooked record outcome :: more,
          action.Succeeded := by
      intro hne more hall
      exact hne (hall (.hooked record outcome) (by simp))
    cases outcome with
    | error message =>
      exact ⟨[.processed record result, .hooked record (.error message)], by simp,
        hquiet [] (by simp), fun hall => absurd hall (hfailed (by simp) [])⟩
    | threw message =>
      exact ⟨[.processed record result, .hooked record (.threw message)], by simp,
        hquiet [] (by simp), fun hall => absurd hall (hfailed (by simp) [])⟩
    | ok =>
      unfold CallResult.caught commitOffset
      simp only [ensures_bind, ensures_inWorld, ensures_note]
      generalize env.commit record.sourceOffset world = reply
      obtain ⟨answer, world'⟩ := reply
      have hone : ∀ request given, AppAction.produced request given ∉
          [AppAction.committed record.sourceOffset answer] := by
        intro request given hmem
        cases List.mem_singleton.1 hmem
      cases answer with
      | error message =>
        refine ⟨_, by simp, hquiet _ hone, fun hall => ?_⟩
        cases hall (.committed record.sourceOffset (.error message)) (by simp)
      | threw message =>
        refine ⟨_, by simp, hquiet _ hone, .committed record.sourceOffset (.threw message),
          by simp, by simp [AppAction.Succeeded]⟩
      | ok =>
        refine ⟨.processed record result :: .hooked record .ok ::
          [.committed record.sourceOffset .ok], ?_, hquiet _ hone, fun _ => ⟨rfl, by simp⟩⟩
        dsimp only
        split <;> simp

/-- In every incarnation of the worker, a duplicate is harmless if and only if the offset of its
original was committed since the worker started, both to the worker between two turns and to the one
that has just polled it. -/
theorem duplicate_harmless_iff (h : s.Reached env guard)
    (hsource : checkSource env guard record = none)
    (hstep : (s.runtime.step (.input record.inbound (env.parse record.value) .live)).1 = .ok result)
    (hduplicate : result.status = .duplicate) :
    (Harmless env guard record s ↔ ∃ original, result.duplicate = some original ∧
      .committed original.sourceOffset .ok ∈ s.journal) ∧
    ∀ world, env.poll s.world = (.ok (some record), world) →
      (Harmless env guard record
          { s with world := world, journal := s.journal ++ [.polled record] } ↔
        ∃ original, result.duplicate = some original ∧
          .committed original.sourceOffset .ok ∈ s.journal) := by
  refine ⟨harmless_iff h.knows hsource hstep hduplicate, fun world _ => ?_⟩
  have hpolled := h.knows.note (.polled record) (by simp) world s.runtime
  rw [harmless_iff hpolled hsource hstep hduplicate]
  simp

end Duplicate

section Samples

instance exceptDecidableEq {ε α : Type} [DecidableEq ε] [DecidableEq α] : DecidableEq (Except ε α)
  | .ok a, .ok b => decidable_of_iff (a = b) (by simp)
  | .error a, .error b => decidable_of_iff (a = b) (by simp)
  | .ok _, .error _ => isFalse (by simp)
  | .error _, .ok _ => isFalse (by simp)

/-- A broker with records to poll, and a store that keeps the last checkpoint. -/
structure SampleWorld where
  queue : List ConsumedRecord
  checkpoint : Option EngineCheckpoint

/-- Every record holds the same order, and every call succeeds. -/
def sampleEnvironment : Environment SampleWorld where
  parse _ := .ok (samplePlaceInput 1 11 .long 100 10)
  poll world :=
    match world.queue with
    | [] => (.ok none, world)
    | record :: queue => (.ok (some record), { world with queue := queue })
  produce _ world := (.ok, world)
  preCommitHook record runtime world :=
    match createCheckpoint runtime ⟨record.topic, record.partition, record.offset + 1⟩ [] with
    | .ok checkpoint => (.ok, { world with checkpoint := some checkpoint })
    | .error message => (.error message, world)
  commit _ world := (.ok, world)
  stopRequested world := (false, world)

def sampleWorkerConfig : EngineWorkerConfig := ⟨engineInputTopic, 0, 1, none⟩

def polledRecord (offset : ℤ) : ConsumedRecord := ⟨engineInputTopic, 0, offset, []⟩

/-- The order at offset 0 is processed, published, checkpointed and committed. -/
def sampleFirstLife : Except Text Unit × EngineAppState SampleWorld :=
  (workerLoop sampleEnvironment sampleWorkerConfig 1 0).run.run
    (.start ⟨[polledRecord 0, polledRecord 1], none⟩ (.new sampleRuntimeConfig))

/-- The runtime of the next worker, restored from the checkpoint. -/
def sampleRecovered : EngineRuntime :=
  match sampleFirstLife.2.world.checkpoint with
  | some checkpoint => ((restoreRuntime checkpoint).run.run (.new sampleRuntimeConfig)).2
  | none => .new sampleRuntimeConfig

/-- The next worker polls the order again, at offset 1. -/
def sampleSecondLife : Except Text Unit × EngineAppState SampleWorld :=
  (workerLoop sampleEnvironment sampleWorkerConfig 1 0).run.run
    (.start sampleFirstLife.2.world sampleRecovered)

def sampleOriginal : ProcessedRuntimeRequest :=
  ⟨.placeOrder, engineInputTopic, 0, 0, some (ascii "in-1"), ascii "idem-1"⟩

/-- What the runtime says to the second record. -/
def sampleDuplicate : EngineProcessResult :=
  makeDuplicateResult .inputId (ascii "in-1") sampleOriginal

/-- The original was completed before the restart; the duplicate stops the worker after it. -/
theorem duplicate_after_restart_stops_worker :
    AppAction.hooked (polledRecord 0) .ok ∈ sampleFirstLife.2.journal ∧
      AppAction.committed ⟨engineInputTopic, 0, 0⟩ .ok ∈ sampleFirstLife.2.journal ∧
      sampleDuplicate.duplicate.map (·.sourceOffset) = some ⟨engineInputTopic, 0, 0⟩ ∧
      sampleSecondLife.2.journal =
        [.polled (polledRecord 1), .processed (polledRecord 1) sampleDuplicate] ∧
      sampleSecondLife.1 = .error (ascii "duplicate source offset has not been committed") := by
  refine ⟨by decide +kernel, by decide +kernel, by decide +kernel, by decide +kernel, ?_⟩
  decide +kernel

/-- The worker after the first turn of its first life. -/
def sampleFirstTurn : EngineAppState SampleWorld :=
  ((pollOnce sampleEnvironment sampleWorkerConfig.guard).run.run
    (.start ⟨[polledRecord 0, polledRecord 1], none⟩ (.new sampleRuntimeConfig))).2

/-- In the first life, the second record is harmless. -/
theorem duplicate_harmless_iff_sample :
    Harmless sampleEnvironment sampleWorkerConfig.guard (polledRecord 1) sampleFirstTurn ∧
      Harmless sampleEnvironment sampleWorkerConfig.guard (polledRecord 1)
        { sampleFirstTurn with
          world := (sampleEnvironment.poll sampleFirstTurn.world).2
          journal := sampleFirstTurn.journal ++ [.polled (polledRecord 1)] } := by
  have hreached : sampleFirstTurn.Reached sampleEnvironment sampleWorkerConfig.guard :=
    (EngineAppState.Reached.start _ _).goesOn (by decide +kernel)
  have hrepeats : (sampleFirstTurn.runtime.step (.input (polledRecord 1).inbound
      (sampleEnvironment.parse (polledRecord 1).value) .live)).1.toOption.any (fun result =>
        decide (result.status = .duplicate ∧
          result.duplicate.map (·.sourceOffset) = some ⟨engineInputTopic, 0, 0⟩)) = true := by
    decide +kernel
  have hcommitted : AppAction.committed ⟨engineInputTopic, 0, 0⟩ .ok ∈ sampleFirstTurn.journal := by
    decide +kernel
  have hsource : checkSource sampleEnvironment sampleWorkerConfig.guard (polledRecord 1) = none := by
    decide +kernel
  have hpoll : (sampleEnvironment.poll sampleFirstTurn.world).1 = .ok (some (polledRecord 1)) := by
    decide +kernel
  generalize sampleFirstTurn = s at hreached hrepeats hcommitted hpoll ⊢
  cases hstep : (s.runtime.step (.input (polledRecord 1).inbound
      (sampleEnvironment.parse (polledRecord 1).value) .live)).1 with
  | error message =>
    rw [hstep] at hrepeats
    cases hrepeats
  | ok result =>
    rw [hstep] at hrepeats
    obtain ⟨hstatus, hduplicate⟩ := of_decide_eq_true hrepeats
    obtain ⟨original, horiginal, hoffset⟩ := Option.map_eq_some_iff.1 hduplicate
    rw [← hoffset] at hcommitted
    have hiff := duplicate_harmless_iff hreached hsource hstep hstatus
    exact ⟨hiff.1.2 ⟨original, horiginal, hcommitted⟩,
      (hiff.2 _ (Prod.ext hpoll rfl)).2 ⟨original, horiginal, hcommitted⟩⟩

end Samples
end PerpexEngine
