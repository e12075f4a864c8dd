import PerpexEngine.Core.CoreRuns
import PerpexEngine.Recovery.Checkpoint
import PerpexEngine.Runtime.RuntimeRuns

/-! Restoring a checkpoint into a runtime: all of it, or, where the header is refused, nothing. A
ladder that is too large for a vector stops it half way, and so does a public sequence that the reader
lets through but the generator refuses. -/
namespace PerpexEngine
open Program

section Reader

/-- The lines that are still to be read. -/
abbrev ReaderM := Program Text (List Text)

/-- `split_line`: the fields between tabs. -/
def splitLine : Text → List Text
  | [] => [[]]
  | b :: line =>
    if b = 9 then [] :: splitLine line
    else
      match splitLine line with
      | [] => [[b]]
      | field :: fields => (b :: field) :: fields

def digitsValue : ℕ → Text → Option ℕ
  | n, [] => some n
  | n, b :: digits => if IsDigit b then digitsValue (10 * n + (b.toNat - 48)) digits else none

/-- `std::from_chars` of a whole field into an unsigned integer below `2 ^ bits`. -/
def parseUnsigned (bits : ℕ) (value : Text) : Except Text ℕ :=
  match digitsValue 0 value with
  | some n =>
    if value = [] ∨ 2 ^ bits ≤ n then throw (ascii "invalid integer in checkpoint field") else pure n
  | none => throw (ascii "invalid integer in checkpoint field")

/-- `std::from_chars` of a whole field into an `int64_t`. -/
def parseInt64 (value : Text) : Except Text ℤ :=
  match value with
  | [] => throw (ascii "invalid integer in checkpoint field")
  | b :: digits =>
    let magnitude := if b = 45 then digits else value
    match digitsValue 0 magnitude with
    | none => throw (ascii "invalid integer in checkpoint field")
    | some n =>
      let parsed : ℤ := if b = 45 then -(n : ℤ) else n
      if magnitude = [] ∨ parsed < -2 ^ 63 ∨ 2 ^ 63 ≤ parsed then
        throw (ascii "invalid integer in checkpoint field")
      else pure parsed

def readRawLine : ReaderM Text := do
  let lines ← get
  match lines with
  | [] => throw (ascii "unexpected end of checkpoint file")
  | line :: lines => do
    set lines
    pure (if line.getLast? = some 13 then line.dropLast else line)

def readFields (expectedTag : Text) : ReaderM (List Text) := do
  let line ← readRawLine
  let fields := splitLine line
  if fields.head? = some expectedTag then pure fields
  else throw (ascii "unexpected checkpoint section")

def readCount (expectedTag : Text) : ReaderM ℕ := do
  let fields ← readFields expectedTag
  match fields with
  | [_, count] => liftExcept (parseUnsigned 64 count)
  | _ => throw (ascii "unexpected checkpoint field count")

/-- The loop of `read_public_sequences`, from the sequences read so far. -/
def readPublicSequenceEntries :
    ℕ → Std.ExtTreeMap MarketId EngineSequence → ReaderM (Std.ExtTreeMap MarketId EngineSequence)
  | 0, sequences => pure sequences
  | count + 1, sequences => do
    let fields ← readFields (ascii "public_sequence")
    match fields with
    | [_, marketId, nextSequence] => do
      let marketId ← liftExcept (parseInt64 marketId)
      let nextSequence ← liftExcept (parseUnsigned 64 nextSequence)
      if sequences.contains marketId then
        throw (ascii "duplicate public sequence market id")
      else readPublicSequenceEntries count (sequences.insert marketId nextSequence)
    | _ => throw (ascii "unexpected checkpoint field count")

def readPublicSequences : ReaderM (Std.ExtTreeMap MarketId EngineSequence) := do
  let count ← readCount (ascii "public_sequences")
  readPublicSequenceEntries count ∅

end Reader

/-- The schema and the source position are what `restore_runtime` asks for. -/
def EngineCheckpoint.HeaderValid (checkpoint : EngineCheckpoint) : Prop :=
  checkpoint.schemaVersion = currentEngineCheckpointSchemaVersion ∧
    validateCheckpointSourcePosition checkpoint.sourcePosition = none

/-- Every public sequence is one that `MarketSequenceGenerator::restore` takes. -/
def EngineCheckpoint.SequencesValid (checkpoint : EngineCheckpoint) : Prop :=
  ∀ entry ∈ checkpoint.publicSequences.toList, 0 < entry.1 ∧ 0 < entry.2

/-- The ladders of every symbol can be built. -/
def EngineCheckpoint.LaddersFit (checkpoint : EngineCheckpoint) : Prop :=
  ∀ symbol ∈ checkpoint.coreSnapshot.symbolSnapshots,
    EngineCore.ladderFits symbol.symbolConfig.ringCapacityTicks = true

/-- Where restoring throws, the runtime is as it was. -/
def EngineCheckpoint.AllOrNothing (checkpoint : EngineCheckpoint) (rt : EngineRuntime) : Prop :=
  Ensures (restoreRuntime checkpoint) rt (fun _ _ => True) fun after => after = rt

section Restore
variable {checkpoint : EngineCheckpoint} {rt : EngineRuntime}

/-- Some entry stops the loop, which has touched the sequences alone. -/
theorem ensures_restoreSequences_invalid (entries : List (MarketId × EngineSequence)) (l : Ledger)
    (h : ¬∀ entry ∈ entries, 0 < entry.1 ∧ 0 < entry.2) :
    Ensures (EngineRuntime.restoreSequences entries) l (fun _ _ => False) fun _ => True := by
  induction entries generalizing l with
  | nil => exact absurd nofun h
  | cons entry entries ih =>
    unfold EngineRuntime.restoreSequences MarketSequenceGenerator.restore
    rw [ensures_bind, ensures_get, ensures_bind]
    by_cases hmarket : entry.1 ≤ 0
    · rw [if_pos hmarket]
      trivial
    · rw [if_neg hmarket]
      by_cases hsequence : entry.2 = 0
      · rw [if_pos hsequence]
        trivial
      · rw [if_neg hsequence]
        refine ih _ fun hrest => h fun e he => ?_
        rcases List.mem_cons.1 he with rfl | he
        · exact ⟨not_le.1 hmarket, Nat.pos_of_ne_zero hsequence⟩
        · exact hrest e he

theorem EngineCore.sequenceGenerator_restoreWithin (fits : ℕ → Bool) (s : EngineSnapshot) :
    (EngineCore.restoreWithin fits s).2.sequenceGenerator = s.sequenceState := by
  unfold EngineCore.restoreWithin
  generalize hcore : (⟨∅, ∅, s.sequenceState, s.idempotencyState⟩ : EngineCore OrderBook) = core
  have hstart : core.sequenceGenerator = s.sequenceState := by rw [← hcore]
  rw [← hstart]
  clear hcore hstart
  generalize s.symbolSnapshots = symbols
  induction symbols generalizing core with
  | nil => rfl
  | cons symbol symbols ih =>
    unfold EngineCore.restoreSymbols
    split_ifs
    · exact ih (core.restoreSymbol symbol)
    · rfl

/-- One ladder that does not fit stops the loop. -/
theorem EngineCore.restoreWithin_fst (fits : ℕ → Bool) (s : EngineSnapshot) :
    (EngineCore.restoreWithin fits s).1 = true ↔
      ∀ symbol ∈ s.symbolSnapshots, fits symbol.symbolConfig.ringCapacityTicks = true := by
  unfold EngineCore.restoreWithin
  generalize (⟨∅, ∅, s.sequenceState, s.idempotencyState⟩ : EngineCore OrderBook) = core
  generalize s.symbolSnapshots = symbols
  induction symbols generalizing core with
  | nil => simp [EngineCore.restoreSymbols]
  | cons symbol symbols ih =>
    unfold EngineCore.restoreSymbols
    rw [List.forall_mem_cons]
    split_ifs with hfits
    · rw [ih]
      exact (and_iff_right hfits).symm
    · simp [hfits]

/-- A refused header throws before anything is written. -/
theorem restoreRuntime_refused (h : ¬checkpoint.HeaderValid) : checkpoint.AllOrNothing rt := by
  unfold EngineCheckpoint.AllOrNothing restoreRuntime
  split
  · rfl
  · rename_i hversion
    split
    · rfl
    · rename_i hposition
      exact absurd ⟨not_not.1 hversion, hposition⟩ h

theorem restoreRuntime_eq (h : checkpoint.HeaderValid) : restoreRuntime checkpoint =
    EngineRuntime.restoreState EngineCore.ladderFits checkpoint.toStateSnapshot := by
  unfold restoreRuntime
  rw [if_neg (not_not.2 h.1), h.2]

/-- Past the header the core is replaced before anything can stop the restore. -/
theorem restoreRuntime_half (h : checkpoint.HeaderValid)
    (hinvalid : ¬(checkpoint.LaddersFit ∧ checkpoint.SequencesValid)) :
    Ensures (restoreRuntime checkpoint) rt (fun _ _ => False) fun after => after.core =
      (EngineCore.restoreWithin EngineCore.ladderFits checkpoint.coreSnapshot).2 := by
  rw [restoreRuntime_eq h]
  unfold EngineRuntime.restoreState withLedger
  rw [ensures_bind, ensures_modify]
  dsimp only
  apply ensures_ite.2
  refine ⟨fun _ => rfl, fun hfits => ?_⟩
  have hladders : checkpoint.LaddersFit :=
    (EngineCore.restoreWithin_fst _ _).1 (Bool.not_eq_false _ ▸ hfits)
  rw [ensures_bind, ensures_modify, ensures_bind, ensures_zoom]
  exact (ensures_restoreSequences_invalid _ _ fun hvalid => hinvalid ⟨hladders, hvalid⟩).mono
    (fun _ _ h => h.elim) fun _ _ => rfl

/-- With ladders that fit and valid sequences nothing throws. -/
theorem restoreRuntime_whole (h : checkpoint.HeaderValid) (hladders : checkpoint.LaddersFit)
    (hvalid : checkpoint.SequencesValid) :
    Ensures (restoreRuntime checkpoint) rt (fun _ _ => True) fun _ => False := by
  have hfits : (EngineCore.restoreWithin EngineCore.ladderFits checkpoint.coreSnapshot).1 = true :=
    (EngineCore.restoreWithin_fst _ _).2 hladders
  rw [restoreRuntime_eq h]
  unfold EngineRuntime.restoreState withLedger
  rw [ensures_bind, ensures_modify]
  dsimp only
  rw [hfits, if_neg (Ne.symm Bool.false_ne_true), ensures_bind, ensures_modify, ensures_bind,
    ensures_zoom]
  refine (ensures_restoreSequences _ _ hvalid).mono (fun _ _ _ => ?_) fun _ h => h
  rw [ensures_modify]
  trivial

/-- A checkpoint is restored as a whole or not at all, into every runtime, if and only if its header
is refused or all its ladders fit and all its public sequences are valid; otherwise the restore always
throws, with what it built of the checkpoint's core in place. -/
theorem restored_all_or_nothing_iff (checkpoint : EngineCheckpoint) :
    ((∀ rt, checkpoint.AllOrNothing rt) ↔
      (checkpoint.HeaderValid → checkpoint.LaddersFit ∧ checkpoint.SequencesValid)) ∧
    (¬(checkpoint.HeaderValid → checkpoint.LaddersFit ∧ checkpoint.SequencesValid) → ∀ rt,
      Ensures (restoreRuntime checkpoint) rt (fun _ _ => False) fun after => after.core =
        (EngineCore.restoreWithin EngineCore.ladderFits checkpoint.coreSnapshot).2) := by
  refine ⟨⟨fun hall hheader => ?_, fun h rt => ?_⟩, fun hnot rt => ?_⟩
  · by_contra hinvalid
    -- a runtime whose core cannot be the one in the checkpoint
    let core : EngineCore OrderBook := { EngineCore.empty with
      sequenceGenerator := { checkpoint.coreSnapshot.sequenceState with
        nextSequence := checkpoint.coreSnapshot.sequenceState.nextSequence + 1 } }
    let rt : EngineRuntime := { EngineRuntime.new ⟨[], 1, 1, fun _ => 0⟩ with core := core }
    have hcore : (EngineCore.restoreWithin EngineCore.ladderFits checkpoint.coreSnapshot).2 ≠
        core := by
      intro heq
      have hgenerator := congrArg EngineCore.sequenceGenerator heq
      rw [EngineCore.sequenceGenerator_restoreWithin] at hgenerator
      exact absurd (congrArg SequenceGenerator.nextSequence hgenerator)
        (Nat.ne_of_lt (Nat.lt_succ_self _))
    have hnever : Ensures (restoreRuntime checkpoint) rt (fun _ _ => False) fun _ => False := by
      refine ((hall rt).and (restoreRuntime_half hheader hinvalid)).mono (fun _ _ h => h.2) ?_
      rintro after ⟨rfl, hafter⟩
      exact hcore hafter.symm
    exact hnever.whatever
  · by_cases hheader : checkpoint.HeaderValid
    · obtain ⟨hladders, hvalid⟩ := h hheader
      exact (restoreRuntime_whole hheader hladders hvalid).mono (fun _ _ _ => trivial)
        fun _ h => h.elim
    · exact restoreRuntime_refused hheader
  · obtain ⟨hheader, hinvalid⟩ := Classical.not_imp.1 hnot
    exact restoreRuntime_half hheader hinvalid

/-- A public sequence of market 0, as the reader gives it. -/
def sampleSequenceLines : List Text :=
  [ascii "public_sequences" ++ 9 :: ascii "1",
    ascii "public_sequence" ++ 9 :: ascii "0" ++ 9 :: ascii "1"]

def sampleFreshRuntime : EngineRuntime := .new ⟨[sampleConfig], 1, 1, fun _ => 0⟩

/-- A checkpoint without symbols, with the public sequences of these lines. -/
def sampleCheckpoint : EngineCheckpoint where
  coreSnapshot := ⟨[], .new, .empty⟩
  metadataStore := ∅
  publicSequences := Std.ExtTreeMap.insert ∅ 0 1
  markPrices := ∅
  fundingRates := ∅
  settledFundingIntervals := ∅
  positions := ∅
  riskStates := ∅
  processedInputIds := ∅
  processedIdempotencyKeys := ∅
  schemaVersion := currentEngineCheckpointSchemaVersion
  checkpointId := ascii "checkpoint"
  sourcePosition := ⟨ascii "engine-in", 0, 12⟩

/-- The reader takes the lines, the restore throws, and the runtime has lost its market. -/
theorem restore_leaves_half : ∃ e after,
    readPublicSequences.run.run sampleSequenceLines =
        (.ok sampleCheckpoint.publicSequences, []) ∧
      (restoreRuntime sampleCheckpoint).run.run sampleFreshRuntime = (.error e, after) ∧
      sampleFreshRuntime.core.orderBooks.contains 1 = true ∧
      after.core.orderBooks.contains 1 = false :=
  ⟨ascii "market_id must be positive", _, rfl, rfl, by decide +kernel, by decide +kernel⟩

end Restore

end PerpexEngine
