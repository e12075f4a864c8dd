import PerpexEngine.Recovery.CheckpointRoundTrip
import PerpexEngine.Runtime.FundingSettlements
import PerpexEngine.Runtime.OrderlyRuns

/-! In a reachable runtime every table files its entries under the keys they name themselves, so
its checkpoints can be written and read back. -/
namespace PerpexEngine

section Core
variable {Book : Type} {core : EngineCore Book}

/-- What is kept of a command is filed under its id. -/
def EngineCore.CommandsFiled (core : EngineCore Book) : Prop :=
  FiledBy CommandResultSummary.commandId core.idempotencyIndex.processedCommandIds

theorem EngineCore.CommandsFiled.reject (h : core.CommandsFiled) (commandId : CommandId)
    (orderId : OrderId) (userId : UserId) (symbolId : SymbolId) (reason : RejectReason)
    (record : Bool) :
    (core.reject commandId orderId userId symbolId reason record).2.CommandsFiled := by
  cases record with
  | false => exact h
  | true => exact FiledBy.insert h (commandSummary _ _ _ _ _)

theorem EngineCore.CommandsFiled.finish (h : core.CommandsFiled) (symbolId : SymbolId)
    (commandId : CommandId) (orderId : OrderId) (accepted : Bool) {index : IdempotencyIndex}
    (hindex : index.processedCommandIds = core.idempotencyIndex.processedCommandIds)
    (result : List EngineEvent × Book × SequenceGenerator) :
    (core.finish symbolId commandId orderId accepted index result).2.CommandsFiled := by
  have hbefore : FiledBy CommandResultSummary.commandId index.processedCommandIds := hindex ▸ h
  exact hbefore.insert (commandSummary _ _ _ _ _)

theorem EngineCore.CommandsFiled.process [MatchingBook Book] (h : core.CommandsFiled)
    (command : EngineCommand) : (core.process command).2.CommandsFiled := by
  cases command with
  | malformed => exact h
  | placeOrder place =>
    change (core.processPlaceOrder place).2.CommandsFiled
    rcases core.processPlaceOrder_outcome place with ⟨reason, record, heq⟩ |
      ⟨config, book, -, -, -, heq⟩
    · rw [heq]
      exact h.reject _ _ _ _ _ _
    · rw [heq]
      refine h.finish _ _ _ _ ?_ _
      unfold placeIndex
      split <;> rfl
  | cancelOrder cancel =>
    change (core.processCancelOrder cancel).2.CommandsFiled
    rcases core.processCancelOrder_cases cancel with ⟨reason, record, heq⟩ |
      ⟨config, book, accepted, -, -, heq⟩
    · rw [heq]
      exact h.reject _ _ _ _ _ _
    · rw [heq]
      exact h.finish _ _ _ _ rfl _

end Core

section Runtime

structure EngineRuntime.TablesFiled (rt : EngineRuntime) : Prop where
  commands : rt.core.CommandsFiled
  markPrices : FiledBy MarkPriceState.marketId rt.markPrices
  fundingRates : FiledBy FundingRateState.marketId rt.fundingRates

theorem tablesFiledRule : RunRule (fun _ => True) fun rt _ rt' => rt.TablesFiled → rt'.TablesFiled where
  nothing _ h := h
  append h h' hs := h' (h hs)
  core _ command h := ⟨h.commands.process command, h.markPrices, h.fundingRates⟩
  ledger _ :=
    { nothing := fun _ h => h
      append := fun _ _ h => ⟨h.commands, h.markPrices, h.fundingRates⟩
      clock := fun _ h => ⟨h.commands, h.markPrices, h.fundingRates⟩
      event := fun _ _ _ h => ⟨h.commands, h.markPrices, h.fundingRates⟩
      metadata := fun _ _ _ h => ⟨h.commands, h.markPrices, h.fundingRates⟩
      fill := fun _ _ _ _ _ h => ⟨h.commands, h.markPrices, h.fundingRates⟩ }
  inputId _ inputId _ h := by
    cases inputId <;> exact ⟨h.commands, h.markPrices, h.fundingRates⟩
  idempotencyKey _ _ _ h := ⟨h.commands, h.markPrices, h.fundingRates⟩
  markPrice _ input h := ⟨h.commands, h.markPrices.insert (markStateFromInput input), h.fundingRates⟩
  fundingRate _ input h :=
    ⟨h.commands, h.markPrices, h.fundingRates.insert (fundingRateStateFromInput input)⟩
  funding _ _ _ h := ⟨h.commands, h.markPrices, h.fundingRates⟩
  settled _ _ h := ⟨h.commands, h.markPrices, h.fundingRates⟩
  restart rt config _ h := by
    obtain ⟨-, -, -, hindex⟩ := rt.core.restore_snapshot
    refine ⟨?_, h.markPrices, h.fundingRates⟩
    unfold EngineCore.CommandsFiled EngineRuntime.restarted
    rw [hindex]
    exact h.commands

theorem reachable_tablesFiled (config : EngineRuntimeConfig) (steps : List RuntimeStep) :
    ((EngineRuntime.new config).run steps).2.TablesFiled := by
  have hsymbols : ∀ (configs : List SymbolConfig) (core : EngineCore OrderBook),
      core.CommandsFiled → (configs.foldl EngineCore.addSymbol core).CommandsFiled := by
    intro configs
    induction configs with
    | nil => exact fun _ h => h
    | cons config configs ih => exact fun core h => ih (core.addSymbol config) h
  obtain ⟨-, hrun, -⟩ := tablesFiledRule.run (positive_new config) steps fun _ _ => trivial
  exact hrun ⟨hsymbols _ _ .empty, .empty, .empty⟩

/-- The checkpoint of a reachable runtime lists its entries under their keys, in order. -/
theorem keyed_stored {rt : EngineRuntime} (h : rt.Accounted) (hfiled : rt.TablesFiled)
    {position : CheckpointSourcePosition} {checkpointId : Text} {checkpoint : EngineCheckpoint}
    (hcreate : createCheckpoint rt position checkpointId = .ok checkpoint) :
    checkpoint.stored.Keyed := by
  obtain ⟨queues, htracks, hlock⟩ := h.lockstep
  have hstored : checkpoint.toStateSnapshot = rt.snapshotState := by
    unfold createCheckpoint at hcreate
    split at hcreate
    · exact nomatch hcreate
    · obtain rfl := Except.ok.inj hcreate
      rfl
  have hsnapshot : checkpoint.coreSnapshot = rt.core.snapshot := by rw [hstored]; rfl
  have hsymbol : ∀ s ∈ checkpoint.coreSnapshot.symbolSnapshots, ∃ (id : SymbolId) (book : OrderBook),
      rt.core.orderBooks[id]? = some book ∧ s = EngineCore.bookSnapshot id book := by
    intro s hs
    rw [hsnapshot, EngineCore.snapshot, List.mem_insertionSort, List.mem_map] at hs
    obtain ⟨entry, hentry, rfl⟩ := hs
    exact ⟨_, _, Std.ExtTreeMap.mem_toList_iff_getElem?_eq_some.1 hentry, rfl⟩
  constructor
  · intro s hs
    obtain ⟨id, book, hbook, rfl⟩ := hsymbol s hs
    have hrel := htracks.rel.books id
    rw [hbook] at hrel
    cases hq : queues.orderBooks[id]? with
    | none =>
      rw [hq] at hrel
      cases hrel
    | some q =>
      rw [hq] at hrel
      cases hrel with
      | some hrefines =>
        have hid := hlock.symbols id q hq
        rw [hrefines.rep.config] at hid
        exact hid
  · change checkpoint.coreSnapshot.symbolSnapshots.Pairwise _
    rw [hsnapshot]
    exact List.pairwise_insertionSort _ _
  · intro s hs
    obtain ⟨id, book, -, rfl⟩ := hsymbol s hs
    exact List.pairwise_insertionSort _ _
  · change ∀ entry ∈ checkpoint.coreSnapshot.idempotencyState.processedCommandIds.toList, _
    rw [hsnapshot]
    exact FiledBy.of_mem hfiled.commands
  · change ∀ entry ∈ checkpoint.markPrices.toList, _
    rw [hstored]
    exact hfiled.markPrices.of_mem
  · change ∀ entry ∈ checkpoint.fundingRates.toList, _
    rw [hstored]
    exact hfiled.fundingRates.of_mem
  · change ∀ entry ∈ checkpoint.metadataStore.toList, _
    rw [hstored]
    intro entry hentry
    exact (hlock.filed _ _ (Std.ExtTreeMap.mem_toList_iff_getElem?_eq_some.1 hentry)).1

/-- A checkpoint of a reachable runtime is read back whole, but for metadata of orders that rest in
no book. -/
theorem checkpoint_read_back (config : EngineRuntimeConfig) (steps : List RuntimeStep)
    (position : CheckpointSourcePosition) (checkpointId : Text) {checkpoint : EngineCheckpoint}
    (hcreate : createCheckpoint ((EngineRuntime.new config).run steps).2 position checkpointId =
      .ok checkpoint) (htyped : checkpoint.stored.Typed) :
    ∃ read, deserializeCheckpoint (serializeCheckpoint checkpoint) = .ok read ∧
      read = { checkpoint.stored with metadataStore := read.metadataStore } ∧
      ∀ symbol ∈ read.coreSnapshot.symbolSnapshots, ∀ order ∈ symbol.activeOrders,
        read.metadataStore[order.orderId]? = checkpoint.metadataStore[order.orderId]? := by
  have hkeyed := keyed_stored (reachable_accounted config steps) (reachable_tablesFiled config steps)
    hcreate
  refine ⟨_, deserializeCheckpoint_writeCheckpoint htyped hkeyed, rfl, ?_⟩
  exact fun symbol hs order ho => activeMetadata_getElem? hkeyed hs ho

/-- The checkpoint of a sample run, with bytes in its id and its topic that the file escapes. -/
def sampleRunCheckpoint : EngineCheckpoint :=
  { ((EngineRuntime.new sampleRuntimeConfig).run sampleFundingSteps).2.snapshotState with
    schemaVersion := currentEngineCheckpointSchemaVersion
    checkpointId := [9, 10, 92, 0, 255]
    sourcePosition := ⟨ascii "engine" ++ [13, 10], 2, 5⟩ }

theorem checkpoint_read_back_sample :
    ∃ read, deserializeCheckpoint (serializeCheckpoint sampleRunCheckpoint) = .ok read ∧
      read = { sampleRunCheckpoint.stored with metadataStore := read.metadataStore } ∧
      ∀ symbol ∈ read.coreSnapshot.symbolSnapshots, ∀ order ∈ symbol.activeOrders,
        read.metadataStore[order.orderId]? = sampleRunCheckpoint.metadataStore[order.orderId]? :=
  checkpoint_read_back sampleRuntimeConfig sampleFundingSteps sampleRunCheckpoint.sourcePosition
    sampleRunCheckpoint.checkpointId rfl (by decide +kernel)

end Runtime
end PerpexEngine
