import PerpexEngine.Lib.OffsetLog
import PerpexEngine.Recovery.RecoveryCoordinator

/-! Recovery over a broker log: what the replay has applied, and where it leaves the consumer. -/
namespace PerpexEngine
open Program

/-- The log of one partition with all that is ever written to it. A poll sees a part of it, however
much has been written by then, or fails. -/
structure BrokerLog where
  topic : Text
  partition : ℤ
  records : List ConsumedRecord
  increasing : Ranked ConsumedRecord.offset records
  watermark : BrokerWatermarkOffsets
  watermarkError : Option Text
  seekError : Option Text
  visible : ℕ → ℕ
  pollError : ℕ → Option Text

structure LogCursor where
  position : ℤ
  polls : ℕ
deriving DecidableEq, Repr

namespace BrokerLog
variable (log : BrokerLog)

/-- The records from an offset on. -/
def since (first : ℤ) : List ConsumedRecord := OffsetLog.since ConsumedRecord.offset first log.records

def between (first last : ℤ) : List ConsumedRecord :=
  OffsetLog.between ConsumedRecord.offset first last log.records

def IsHere (topic : Text) (partition : ℤ) : Prop := topic = log.topic ∧ partition = log.partition

instance (topic : Text) (partition : ℤ) : Decidable (log.IsHere topic partition) :=
  inferInstanceAs (Decidable (_ ∧ _))

/-- A poll returns the next of the records it sees, and the position moves past it. -/
def poll (cursor : LogCursor) : Except Text (Option ConsumedRecord) × LogCursor :=
  let polled := { cursor with polls := cursor.polls + 1 }
  match log.pollError cursor.polls with
  | some error => (.error error, polled)
  | none =>
    match OffsetLog.next ConsumedRecord.offset cursor.position
        (log.records.take (log.visible cursor.polls)) with
    | none => (.ok none, polled)
    | some record => (.ok (some record), { polled with position := record.offset + 1 })

def seek (topic : Text) (partition offset : ℤ) (cursor : LogCursor) : Option Text × LogCursor :=
  if ¬log.IsHere topic partition then (some (ascii "unknown partition"), cursor)
  else
    match log.seekError with
    | some error => (some error, cursor)
    | none => (none, { cursor with position := offset })

def getWatermark (topic : Text) (partition : ℤ) (cursor : LogCursor) :
    Except (Option Text) BrokerWatermarkOffsets × LogCursor :=
  if ¬log.IsHere topic partition then (.error (some (ascii "unknown partition")), cursor)
  else
    match log.watermarkError with
    | some error => (.error (some error), cursor)
    | none => (.ok log.watermark, cursor)

def consumer : EngineInputConsumer LogCursor where
  poll := log.poll
  seek := log.seek
  getWatermark := log.getWatermark

/-- The records that so many polls return, and where they leave the cursor. -/
def pollMany : ℕ → LogCursor → List ConsumedRecord × LogCursor
  | 0, cursor => ([], cursor)
  | polls + 1, cursor =>
    let (polled, cursor) := log.poll cursor
    let (records, cursor) := pollMany polls cursor
    (((polled.toOption.getD none).toList ++ records), cursor)

end BrokerLog

/-- The runtime after a silent replay of these records. -/
def EngineRuntime.replayed (parse : Text → Except Text EngineInput) (rt : EngineRuntime)
    (records : List ConsumedRecord) : EngineRuntime :=
  records.foldl (fun rt record =>
    (rt.step (.input record.inbound (parse record.value) .replaySilent)).2) rt

section Poll
variable {log : BrokerLog} {cursor : LogCursor}

theorem poll_some {record : ConsumedRecord} (h : (log.poll cursor).1 = .ok (some record)) :
    OffsetLog.next ConsumedRecord.offset cursor.position log.records = some record ∧
      (log.poll cursor).2.position = record.offset + 1 := by
  unfold BrokerLog.poll at h ⊢
  dsimp only at h ⊢
  cases herror : log.pollError cursor.polls with
  | some error => simp [herror] at h
  | none =>
    simp only [herror] at h ⊢
    cases hnext : OffsetLog.next ConsumedRecord.offset cursor.position
        (log.records.take (log.visible cursor.polls)) with
    | none => simp [hnext] at h
    | some next =>
      simp only [hnext, Except.ok.injEq, Option.some.injEq] at h ⊢
      subst h
      exact ⟨OffsetLog.next_take hnext, rfl⟩

theorem poll_other (h : ∀ record, (log.poll cursor).1 ≠ .ok (some record)) :
    (log.poll cursor).2.position = cursor.position := by
  unfold BrokerLog.poll at h ⊢
  dsimp only at h ⊢
  cases herror : log.pollError cursor.polls with
  | some error => rfl
  | none =>
    simp only [herror] at h ⊢
    cases hnext : OffsetLog.next ConsumedRecord.offset cursor.position
        (log.records.take (log.visible cursor.polls)) with
    | none => rfl
    | some next => simp [hnext] at h

/-- Polling neither skips nor repeats: what it returned, with what is left, is what was left. -/
theorem pollMany_append_since (polls : ℕ) (cursor : LogCursor) :
    (log.pollMany polls cursor).1 ++ log.since (log.pollMany polls cursor).2.position =
      log.since cursor.position := by
  induction polls generalizing cursor with
  | zero => rfl
  | succ polls ih =>
    have hrest := ih (log.poll cursor).2
    unfold BrokerLog.pollMany
    dsimp only
    rw [List.append_assoc, hrest]
    cases hpoll : (log.poll cursor).1 with
    | error message =>
      rw [poll_other fun record => by rw [hpoll]; nofun]
      rfl
    | ok polled =>
      cases polled with
      | none =>
        rw [poll_other fun record => by rw [hpoll]; nofun]
        rfl
      | some record =>
        obtain ⟨hnext, hposition⟩ := poll_some hpoll
        rw [hposition]
        exact (OffsetLog.since_next log.increasing hnext).symm

end Poll

section Replay
variable {log : BrokerLog} {parse : Text → Except Text EngineInput} {base : EngineRuntime}
  {start high : ℤ} {result : RecoveryResult} {s : RecoveryState LogCursor}
  {position : CheckpointSourcePosition}

/-- The loop has applied the records from the start up to the next offset, the last of them below
the high watermark, and the cursor stands there. -/
structure Replaying (log : BrokerLog) (parse : Text → Except Text EngineInput)
    (base : EngineRuntime) (start high : ℤ) (nextOffset : ℤ) (s : RecoveryState LogCursor) :
    Prop where
  le : start ≤ nextOffset
  applied : s.applied = log.between start nextOffset
  runtime : s.runtime = base.replayed parse s.applied
  last : nextOffset = start ∨ ∃ record ∈ log.records, record.offset < high ∧
    nextOffset = record.offset + 1

/-- How a replay that caught up ended: at the high watermark, or with a poll beyond it. -/
def Ended (log : BrokerLog) (high nextOffset : ℤ) (cursor : LogCursor) : Prop :=
  (high ≤ nextOffset ∧ cursor.position = nextOffset) ∨
    (nextOffset < high ∧ ∃ record,
      OffsetLog.next ConsumedRecord.offset nextOffset log.records = some record ∧
      high ≤ record.offset ∧ cursor.position = record.offset + 1)

theorem Replaying.begin (log : BrokerLog) (parse : Text → Except Text EngineInput) (start high : ℤ)
    {s : RecoveryState LogCursor} (h : s.applied = []) :
    Replaying log parse s.runtime start high start s where
  le := le_rfl
  applied := by
    rw [h]
    exact OffsetLog.between_self.symm
  runtime := by
    rw [h]
    rfl
  last := .inl rfl

theorem Replaying.next {nextOffset : ℤ} {record : ConsumedRecord} {processed : EngineProcessResult}
    (h : Replaying log parse base start high nextOffset s)
    (hnext : OffsetLog.next ConsumedRecord.offset nextOffset log.records = some record)
    (hhigh : record.offset < high) {world : LogCursor} {runtime : EngineRuntime}
    (hstep : s.runtime.step (.input record.inbound (parse record.value) .replaySilent) =
      (.ok processed, runtime)) :
    Replaying log parse base start high (record.offset + 1)
      ⟨world, runtime, s.applied ++ [record]⟩ where
  le := by
    have hle := OffsetLog.le_next hnext
    have hstart := h.le
    omega
  applied := by
    rw [h.applied]
    exact (OffsetLog.between_next log.increasing h.le hnext).symm
  runtime := by
    unfold EngineRuntime.replayed
    rw [List.foldl_append, List.foldl_cons, List.foldl_nil]
    have hbase := h.runtime
    unfold EngineRuntime.replayed at hbase
    rw [← hbase, hstep]
  last := .inr ⟨record, OffsetLog.next_mem hnext, hhigh, rfl⟩

@[simp] theorem ensures_askConsumer {α : Type} {call : LogCursor → α × LogCursor}
    {Q : α → RecoveryState LogCursor → Prop} {E : RecoveryState LogCursor → Prop} :
    Ensures (askConsumer call) s Q E ↔
      Q (call s.world).1 { s with world := (call s.world).2 } := Iff.rfl

/-- A polled record ends the replay, caught up only if it is beyond the high watermark, or has
been applied. -/
theorem ensures_replayPolled {record : ConsumedRecord} :
    Ensures (replayPolled parse position high result record) s (fun outcome s' =>
      match outcome with
      | .inl result' => result'.caughtUp = true →
          high ≤ record.offset ∧ result' = { result with caughtUp := true } ∧ s' = s
      | .inr result' => record.offset < high ∧ ∃ processed runtime,
          s.runtime.step (.input record.inbound (parse record.value) .replaySilent) =
            (.ok processed, runtime) ∧
          result' = result.advance record processed high ∧
          s' = ⟨s.world, runtime, s.applied ++ [record]⟩) fun _ => False := by
  unfold replayPolled replayRecord
  apply ensures_ite.2
  refine ⟨fun _ => nofun, fun _ => ?_⟩
  apply ensures_ite.2
  refine ⟨fun hhigh => fun _ => ⟨hhigh, rfl, rfl⟩, fun hhigh => ?_⟩
  rw [ensures_bind, ensures_bind, ensures_get]
  rcases hstep : s.runtime.step (.input record.inbound (parse record.value) .replaySilent) with
    ⟨message | processed, runtime⟩
  · exact nofun
  · exact ⟨not_le.1 hhigh, processed, runtime, rfl, rfl, rfl⟩

/-- A result that caught up, with how far its replay got and how that ended. -/
def CaughtUp (log : BrokerLog) (parse : Text → Except Text EngineInput) (base : EngineRuntime)
    (start high : ℤ) (position : Option CheckpointSourcePosition) (outcome : Option RecoveryResult)
    (s : RecoveryState LogCursor) : Prop :=
  ∀ result ∈ outcome, result.caughtUp = true → result.sourcePosition = position ∧
    Replaying log parse base start high result.nextOffset s ∧
    Ended log high result.nextOffset s.world

theorem CaughtUp.of_not {source : Option CheckpointSourcePosition} (h : result.caughtUp = false) :
    CaughtUp log parse base start high source (some result) s := by
  intro result' hresult hdone
  cases Option.mem_some.1 hresult
  rw [h] at hdone
  cases hdone

theorem Replaying.stop (h : Replaying log parse base start high result.nextOffset s)
    (hcursor : s.world.position = result.nextOffset) (hle : high ≤ result.nextOffset) :
    CaughtUp log parse base start high result.sourcePosition (some result) s := by
  intro result' hresult _
  cases Option.mem_some.1 hresult
  exact ⟨rfl, h, .inl ⟨hle, hcursor⟩⟩

/-- The replay loop from any round on. -/
theorem Replaying.loop (h : Replaying log parse base start high result.nextOffset s)
    (hcursor : s.world.position = result.nextOffset) (rounds : ℕ) :
    Ensures (replayLoop log.consumer parse position high rounds result) s
      (CaughtUp log parse base start high result.sourcePosition) fun _ => False := by
  induction rounds generalizing result s with
  | zero =>
    unfold replayLoop
    apply ensures_ite.2
    exact ⟨h.stop hcursor, fun _ result' hresult => absurd hresult (Option.not_mem_none _)⟩
  | succ rounds ih =>
    unfold replayLoop
    apply ensures_ite.2
    refine ⟨h.stop hcursor, fun hlt => ?_⟩
    dsimp only
    rw [ensures_bind, ensures_askConsumer]
    have hpoll := @poll_some log s.world
    change ∀ record, (log.consumer.poll s.world).1 = .ok (some record) → _ at hpoll
    cases hread : (log.consumer.poll s.world).1 with
    | error message => exact CaughtUp.of_not rfl
    | ok polled =>
      cases polled with
      | none => exact CaughtUp.of_not rfl
      | some record =>
        obtain ⟨hnext, hposition⟩ := hpoll record hread
        rw [hcursor] at hnext
        dsimp only
        rw [ensures_bind]
        refine ensures_replayPolled.mono ?_ fun _ => False.elim
        rintro (ended | advanced) s' hpolled
        · rintro result' hresult hdone
          cases Option.mem_some.1 hresult
          obtain ⟨hhigh, rfl, rfl⟩ := hpolled hdone
          exact ⟨rfl, ⟨h.le, h.applied, h.runtime, h.last⟩,
            .inr ⟨not_le.1 hlt, record, hnext, hhigh, hposition⟩⟩
        · obtain ⟨hhigh, processed, runtime, hstep, rfl, rfl⟩ := hpolled
          exact ih (h.next hnext hhigh hstep) hposition

/-- Each round that goes on moves the next offset up, so the loop comes to an end. -/
theorem replayLoop_returns (hcursor : s.world.position = result.nextOffset) {rounds : ℕ}
    (hrounds : (high - result.nextOffset).toNat ≤ rounds) :
    Ensures (replayLoop log.consumer parse position high rounds result) s
      (fun outcome _ => outcome.isSome = true) fun _ => False := by
  induction rounds generalizing result s with
  | zero =>
    unfold replayLoop
    apply ensures_ite.2
    exact ⟨fun _ => rfl, fun hlt => by omega⟩
  | succ rounds ih =>
    unfold replayLoop
    apply ensures_ite.2
    refine ⟨fun _ => rfl, fun hlt => ?_⟩
    dsimp only
    rw [ensures_bind, ensures_askConsumer]
    have hpoll := @poll_some log s.world
    change ∀ record, (log.consumer.poll s.world).1 = .ok (some record) → _ at hpoll
    cases hread : (log.consumer.poll s.world).1 with
    | error message => rfl
    | ok polled =>
      cases polled with
      | none => rfl
      | some record =>
        obtain ⟨hnext, hposition⟩ := hpoll record hread
        have hle := OffsetLog.le_next hnext
        dsimp only
        rw [ensures_bind]
        refine ensures_replayPolled.mono ?_ fun _ => False.elim
        rintro (ended | advanced) s' hpolled
        · rfl
        · obtain ⟨-, processed, runtime, -, rfl, rfl⟩ := hpolled
          refine ih hposition ?_
          change (high - (record.offset + 1)).toNat ≤ rounds
          omega

end Replay

section Recover
variable {log : BrokerLog} {parse : Text → Except Text EngineInput} {s : RecoveryState LogCursor}

@[simp] theorem seek_position {topic : Text} {partition offset : ℤ} {cursor : LogCursor}
    (h : (log.consumer.seek topic partition offset cursor).1 = none) :
    (log.consumer.seek topic partition offset cursor).2.position = offset := by
  change (log.seek topic partition offset cursor).1 = none at h
  change (log.seek topic partition offset cursor).2.position = offset
  unfold BrokerLog.seek at h ⊢
  split_ifs at h ⊢
  · cases hseek : log.seekError with
    | none => rfl
    | some error => simp [hseek] at h

theorem getWatermark_ok {topic : Text} {partition : ℤ} {cursor : LogCursor}
    {watermark : BrokerWatermarkOffsets}
    (h : (log.consumer.getWatermark topic partition cursor).1 = .ok watermark) :
    watermark = log.watermark := by
  change (log.getWatermark topic partition cursor).1 = .ok watermark at h
  unfold BrokerLog.getWatermark at h
  split_ifs at h
  · cases herror : log.watermarkError with
    | none =>
      rw [herror] at h
      cases h
      rfl
    | some error => simp [herror] at h

/-- The checkpoint can be restored into the runtime, and this comes of it. -/
def Restores (checkpoint : EngineCheckpoint) (rt base : EngineRuntime) : Prop :=
  (restoreRuntime checkpoint).run.run rt = (.ok (), base)

/-- Where a recovery that caught up started: at a checkpoint that was loaded and restored, at the
low watermark without one, or nowhere when no source is expected either. -/
inductive RecoveredFrom (log : BrokerLog) (parse : Text → Except Text EngineInput)
    (expected : Option RecoverySource) (loaded : Except Text (Option EngineCheckpoint))
    (s : RecoveryState LogCursor) (result : RecoveryResult) (s' : RecoveryState LogCursor) : Prop
  | checkpoint (checkpoint : EngineCheckpoint) (base : EngineRuntime)
    (hloaded : loaded = .ok (some checkpoint))
    (hrestored : Restores checkpoint s.runtime base)
    (hposition : result.sourcePosition = some checkpoint.sourcePosition)
    (hretained : log.watermark.low ≤ checkpoint.sourcePosition.nextOffset)
    (hreplaying : Replaying log parse base checkpoint.sourcePosition.nextOffset log.watermark.high
      result.nextOffset s')
    (hended : Ended log log.watermark.high result.nextOffset s'.world)
  | low (source : RecoverySource) (hloaded : loaded = .ok none) (hexpected : expected = some source)
    (hposition : result.sourcePosition =
      some ⟨source.topic, source.partition, log.watermark.low⟩)
    (hreplaying : Replaying log parse s.runtime log.watermark.low log.watermark.high
      result.nextOffset s')
    (hended : Ended log log.watermark.high result.nextOffset s'.world)
  | nowhere (hloaded : loaded = .ok none) (hexpected : expected = none)
    (hposition : result.sourcePosition = none) (hnext : result.nextOffset = 0) (hstate : s' = s)

theorem ensures_recoverFromLow (hs : s.applied = []) (rounds : ℕ) (source : RecoverySource) :
    Ensures (recoverFromLow log.consumer parse rounds true source) s (CaughtUp log parse s.runtime
      log.watermark.low log.watermark.high (some ⟨source.topic, source.partition,
        log.watermark.low⟩)) fun _ => False := by
  unfold recoverFromLow
  rw [ensures_bind, ensures_askConsumer]
  cases hwatermark : (log.consumer.getWatermark source.topic source.partition s.world).1 with
  | error error => exact CaughtUp.of_not rfl
  | ok watermark =>
    obtain rfl := getWatermark_ok hwatermark
    apply ensures_ite.2
    refine ⟨fun _ => CaughtUp.of_not rfl, fun _ => ?_⟩
    rw [ensures_bind, ensures_askConsumer]
    dsimp only
    generalize (log.consumer.getWatermark source.topic source.partition s.world).2 = cursor
    cases hseek : (log.consumer.seek source.topic source.partition log.watermark.low cursor).1 with
    | some error => exact CaughtUp.of_not rfl
    | none =>
      have hbegin := Replaying.begin (s := { s with world := (log.consumer.seek source.topic
        source.partition log.watermark.low cursor).2 }) log parse log.watermark.low
        log.watermark.high hs
      apply ensures_ite.2
      constructor
      · intro _
        exact hbegin.loop (seek_position hseek) rounds
      · intro hnot
        refine hbegin.stop (seek_position hseek) ?_
        simpa using hnot

theorem validateRecoveryOffset_low {position : CheckpointSourcePosition}
    {watermark : BrokerWatermarkOffsets} (h : validateRecoveryOffset position watermark = none) :
    watermark.low ≤ position.nextOffset := by
  unfold validateRecoveryOffset at h
  split at h
  · cases h
  · split at h
    · cases h
    · rename_i hlow
      exact not_lt.1 hlow

theorem ensures_recoverFromCheckpoint (hs : s.applied = []) (rounds : ℕ)
    (checkpoint : EngineCheckpoint) :
    Ensures (recoverFromCheckpoint log.consumer parse rounds true checkpoint) s (fun outcome s' =>
      ∃ base, CaughtUp log parse base checkpoint.sourcePosition.nextOffset log.watermark.high
        (some checkpoint.sourcePosition) outcome s' ∧ (∀ result ∈ outcome, result.caughtUp = true →
          Restores checkpoint s.runtime base ∧
            log.watermark.low ≤ checkpoint.sourcePosition.nextOffset)) fun _ => False := by
  have hfail : ∀ {result : RecoveryResult} {s' : RecoveryState LogCursor},
      result.caughtUp = false → ∃ base, CaughtUp log parse base
        checkpoint.sourcePosition.nextOffset log.watermark.high (some checkpoint.sourcePosition)
        (some result) s' ∧ (∀ result' ∈ some result, result'.caughtUp = true →
          Restores checkpoint s.runtime base ∧
            log.watermark.low ≤ checkpoint.sourcePosition.nextOffset) := by
    intro result s' hfalse
    refine ⟨s.runtime, CaughtUp.of_not hfalse, fun result' hresult hdone => ?_⟩
    cases Option.mem_some.1 hresult
    rw [hfalse] at hdone
    cases hdone
  unfold recoverFromCheckpoint
  dsimp only
  rw [ensures_bind, ensures_askConsumer]
  cases hwatermark : (log.consumer.getWatermark checkpoint.sourcePosition.topic
    checkpoint.sourcePosition.partition s.world).1 with
  | error error => exact hfail rfl
  | ok watermark =>
    obtain rfl := getWatermark_ok hwatermark
    dsimp only
    generalize (log.consumer.getWatermark checkpoint.sourcePosition.topic
      checkpoint.sourcePosition.partition s.world).2 = cursor
    split
    · exact hfail rfl
    · rename_i hvalid
      have hretained := validateRecoveryOffset_low hvalid
      unfold restoreCheckpoint
      rw [ensures_bind, ensures_bind, ensures_get]
      rcases hrestored : (restoreRuntime checkpoint).run.run s.runtime with ⟨error | ⟨⟩, base⟩
      · exact hfail rfl
      · dsimp only
        rw [ensures_bind, ensures_set, ensures_pure]
        unfold resumeFrom
        rw [ensures_bind, ensures_askConsumer]
        dsimp only
        cases hseek : (log.consumer.seek checkpoint.sourcePosition.topic
          checkpoint.sourcePosition.partition checkpoint.sourcePosition.nextOffset cursor).1 with
        | some error => exact hfail rfl
        | none =>
          have hbegin := Replaying.begin (s := ⟨(log.consumer.seek checkpoint.sourcePosition.topic
            checkpoint.sourcePosition.partition checkpoint.sourcePosition.nextOffset cursor).2, base,
            s.applied⟩) log parse checkpoint.sourcePosition.nextOffset log.watermark.high hs
          refine (hbegin.loop (seek_position hseek) rounds).mono ?_ fun _ => False.elim
          exact fun outcome s' h => ⟨base, h, fun _ _ _ => ⟨hrestored, hretained⟩⟩

/-- A recovery with replay that caught up says where it started and how it ended. -/
theorem ensures_recoverAndReplay (hs : s.applied = []) (rounds : ℕ)
    (expected : Option RecoverySource) (loaded : Except Text (Option EngineCheckpoint)) :
    Ensures (recoverAndReplay log.consumer parse rounds expected loaded) s (fun outcome s' =>
      ∀ result ∈ outcome, result.caughtUp = true →
        RecoveredFrom log parse expected loaded s result s') fun _ => False := by
  unfold recoverAndReplay recoverImpl
  rcases loaded with message | _ | checkpoint
  · intro result hresult hdone
    cases Option.mem_some.1 hresult
    cases hdone
  · cases expected with
    | none =>
      intro result hresult _
      cases Option.mem_some.1 hresult
      exact .nowhere rfl rfl rfl rfl rfl
    | some source =>
      refine (ensures_recoverFromLow hs rounds source).mono ?_ fun _ => False.elim
      intro outcome s' h result hresult hdone
      obtain ⟨hposition, hreplaying, hended⟩ := h result hresult hdone
      exact .low source rfl rfl hposition hreplaying hended
  · dsimp only
    split
    · intro result hresult hdone
      cases Option.mem_some.1 hresult
      cases hdone
    · refine (ensures_recoverFromCheckpoint hs rounds checkpoint).mono ?_ fun _ => False.elim
      rintro outcome s' ⟨base, h, hrestored⟩ result hresult hdone
      obtain ⟨hposition, hreplaying, hended⟩ := h result hresult hdone
      obtain ⟨hrestores, hretained⟩ := hrestored result hresult hdone
      exact .checkpoint checkpoint base rfl hrestores hposition hretained hreplaying hended

end Recover
end PerpexEngine
