import PerpexEngine.Recovery.CheckpointSections

/-! A checkpoint that is written and read back: all of it, with the metadata of active orders. -/
namespace PerpexEngine
open Program

section Typed

/-- Entries of which there are no more than a `size_t` counts. -/
@[mk_iff]
structure TypedEntries {α : Type} (P : α → Prop) (entries : List α) : Prop where
  size : entries.length < 2 ^ 64
  each : ∀ a ∈ entries, P a

/-- The ids of an entry of a table of orders. -/
abbrev TypedIds (entry : ClientOrderId × OrderId) : Prop := entry.1 < 2 ^ 64 ∧ entry.2 < 2 ^ 64

@[mk_iff]
structure OrderBookSnapshot.Typed (symbol : OrderBookSnapshot) : Prop where
  symbolConfig : symbol.symbolConfig.Typed
  bidLevels : TypedEntries PriceLevelSnapshot.Typed symbol.bidLevels
  askLevels : TypedEntries PriceLevelSnapshot.Typed symbol.askLevels
  activeOrders : TypedEntries OrderSnapshot.Typed symbol.activeOrders
  clientOrderIdToOrderId : TypedEntries TypedIds symbol.clientOrderIdToOrderId.toList

@[mk_iff]
structure IdempotencyIndex.Typed (index : IdempotencyIndex) : Prop where
  processedCommandIds : TypedEntries (fun entry => entry.1 < 2 ^ 64 ∧ entry.2.Typed)
    index.processedCommandIds.toList
  clientOrderIdToOrderId : TypedEntries TypedIds index.clientOrderIdToOrderId.toList
  orderIds : TypedEntries (· < 2 ^ 64) index.orderIds.toList

/-- Every integer of the checkpoint is a value of its C++ type, as are the sizes of its parts. -/
@[mk_iff]
structure StoredCheckpoint.Typed (checkpoint : StoredCheckpoint) : Prop where
  schemaVersion : checkpoint.schemaVersion < 2 ^ 32
  partition : FitsInt32 checkpoint.sourcePosition.partition
  nextOffset : FitsInt64 checkpoint.sourcePosition.nextOffset
  nextSequence : checkpoint.coreSnapshot.sequenceState.nextSequence < 2 ^ 64
  nextTradeId : checkpoint.coreSnapshot.sequenceState.nextTradeId < 2 ^ 64
  nextEventId : checkpoint.coreSnapshot.sequenceState.nextEventId < 2 ^ 64
  symbols : TypedEntries OrderBookSnapshot.Typed checkpoint.coreSnapshot.symbolSnapshots
  idempotency : checkpoint.coreSnapshot.idempotencyState.Typed
  publicSequences : TypedEntries (fun entry => FitsInt64 entry.1 ∧ entry.2 < 2 ^ 64)
    checkpoint.publicSequences.toList
  markPrices : TypedEntries (·.2.Typed) checkpoint.markPrices.toList
  fundingRates : TypedEntries (·.2.Typed) checkpoint.fundingRates.toList
  settledFundingIntervals : TypedEntries (FitsInt64 ·.marketId)
    checkpoint.settledFundingIntervals.toList
  positions : TypedEntries (fun entry => entry.1.Typed ∧ entry.2.Typed) checkpoint.positions.toList
  riskStates : TypedEntries (fun entry => entry.1.Typed ∧ entry.2.Typed)
    checkpoint.riskStates.toList
  metadata : TypedEntries OrderMetadata.Typed (metadataEntries checkpoint)
  processedInputIds : TypedEntries (·.2.Typed) checkpoint.processedInputIds.toList
  processedIdempotencyKeys : TypedEntries (·.2.Typed) checkpoint.processedIdempotencyKeys.toList

/-- What the keys of a checkpoint say of its entries, and in what order its lists are. -/
structure StoredCheckpoint.Keyed (checkpoint : StoredCheckpoint) : Prop where
  symbols : ∀ symbol ∈ checkpoint.coreSnapshot.symbolSnapshots,
    symbol.symbolConfig.symbolId = symbol.symbolId
  sortedSymbols : checkpoint.coreSnapshot.symbolSnapshots.Pairwise fun left right =>
    left.symbolId ≤ right.symbolId
  sortedOrders : ∀ symbol ∈ checkpoint.coreSnapshot.symbolSnapshots,
    symbol.activeOrders.Pairwise fun left right => left.orderId ≤ right.orderId
  commands : ∀ entry ∈ checkpoint.coreSnapshot.idempotencyState.processedCommandIds.toList,
    entry.2.commandId = entry.1
  markPrices : ∀ entry ∈ checkpoint.markPrices.toList, entry.2.marketId = entry.1
  fundingRates : ∀ entry ∈ checkpoint.fundingRates.toList, entry.2.marketId = entry.1
  metadata : ∀ entry ∈ checkpoint.metadataStore.toList, entry.2.orderId = entry.1

instance {α : Type} (P : α → Prop) [DecidablePred P] (entries : List α) :
    Decidable (TypedEntries P entries) := decidable_of_iff' _ (typedEntries_iff P entries)

instance (symbol : OrderBookSnapshot) : Decidable symbol.Typed :=
  decidable_of_iff' _ (OrderBookSnapshot.typed_iff symbol)

instance (index : IdempotencyIndex) : Decidable index.Typed :=
  decidable_of_iff' _ (IdempotencyIndex.typed_iff index)

instance (checkpoint : StoredCheckpoint) : Decidable checkpoint.Typed :=
  decidable_of_iff' _ (StoredCheckpoint.typed_iff checkpoint)

end Typed

section Core

theorem takes_clientOrders {tag entryTag : Text} (htag : IsTag tag) (hentry : IsTag entryTag)
    {table : Std.ExtTreeMap ClientOrderId OrderId} (h : TypedEntries TypedIds table.toList)
    (error : String) : (readSection tag entryTag (addClientOrder error) ∅).Takes
      ((countedRows tag (clientOrderRow entryTag) table.toList).map joinFields) table :=
  takes_readSection htag h.size (takes_tableEntries
    (fun entry => ⟨isRow_clientOrderRow hentry entry, rfl⟩)
    fun entry he before => addClientOrder_row (h.each entry he) error entryTag before)

theorem takes_priceLevels {tag entryTag : Text} (htag : IsTag tag) (hentry : IsTag entryTag)
    {levels : List PriceLevelSnapshot} (h : TypedEntries PriceLevelSnapshot.Typed levels) :
    (readPriceLevels tag entryTag).Takes ((priceLevelRows tag entryTag levels).map joinFields)
      levels :=
  takes_readSection htag h.size (takes_listEntries
    (fun level => ⟨isRow_priceLevelRow hentry level, rfl⟩)
    fun level hl before => addPriceLevel_row (h.each level hl) entryTag before)

theorem takes_orders {orders : List OrderSnapshot} (h : TypedEntries OrderSnapshot.Typed orders) :
    readOrders.Takes ((countedRows (ascii "active_orders") orderRow orders).map joinFields)
      orders :=
  takes_readSection (by decide) h.size (takes_listEntries
    (fun order => ⟨⟨_, _, rfl, by decide, by simp⟩, rfl⟩)
    fun order ho before => addOrder_row (h.each order ho) before)

theorem takes_symbolConfig {config : SymbolConfig} (h : config.Typed) :
    readSymbolConfig.Takes [joinFields (symbolConfigRow config)] config := by
  have hrow : IsRow (symbolConfigRow config) := ⟨_, _, rfl, by decide, by simp⟩
  exact Takes.thenLift (takes_row hrow rfl) (symbolConfigOf_row h)

theorem takes_symbolEntries {symbols : List OrderBookSnapshot} (h : ∀ s ∈ symbols, s.Typed)
    (hkeyed : ∀ s ∈ symbols, s.symbolConfig.symbolId = s.symbolId)
    (hsorted : ∀ s ∈ symbols, s.activeOrders.Pairwise fun left right =>
      left.orderId ≤ right.orderId) (done : List OrderBookSnapshot) :
    (readSymbolEntries symbols.length done).Takes ((symbols.flatMap orderBookRows).map joinFields)
      (done ++ symbols) := by
  induction symbols generalizing done with
  | nil =>
    rw [List.append_nil]
    exact .pure done
  | cons symbol symbols ih =>
    have htyped := h symbol List.mem_cons_self
    have hid := hkeyed symbol List.mem_cons_self
    have horders : sortedOrders symbol.activeOrders = symbol.activeOrders :=
      List.Pairwise.insertionSort_eq (hsorted symbol List.mem_cons_self)
    have hrest := ih (fun s hs => h s (List.mem_cons_of_mem _ hs))
      (fun s hs => hkeyed s (List.mem_cons_of_mem _ hs))
      (fun s hs => hsorted s (List.mem_cons_of_mem _ hs)) (done ++ [symbol])
    have hlines : ((symbol :: symbols).flatMap orderBookRows).map joinFields =
        [joinFields (symbolConfigRow symbol.symbolConfig)] ++
          ((priceLevelRows (ascii "bid_levels") (ascii "bid_level") symbol.bidLevels).map
            joinFields ++
          ((priceLevelRows (ascii "ask_levels") (ascii "ask_level") symbol.askLevels).map
            joinFields ++
          ((countedRows (ascii "active_orders") orderRow symbol.activeOrders).map joinFields ++
          ((countedRows (ascii "client_order_map") (clientOrderRow (ascii "client_order"))
            symbol.clientOrderIdToOrderId.toList).map joinFields ++
          (symbols.flatMap orderBookRows).map joinFields)))) := by
      simp only [List.flatMap_cons, orderBookRows, horders, List.map_append, List.map_cons,
        List.append_assoc, List.cons_append, List.nil_append]
    rw [hlines]
    refine (takes_symbolConfig htyped.symbolConfig).bind
      ((takes_priceLevels (by decide) (by decide) htyped.bidLevels).bind
      ((takes_priceLevels (by decide) (by decide) htyped.askLevels).bind
      ((takes_orders htyped.activeOrders).bind
      ((takes_clientOrders (by decide) (by decide) htyped.clientOrderIdToOrderId _).bind ?_))))
    rw [hid]
    rw [List.append_assoc] at hrest
    exact hrest

theorem takes_symbols {symbols : List OrderBookSnapshot}
    (h : TypedEntries OrderBookSnapshot.Typed symbols)
    (hkeyed : ∀ s ∈ symbols, s.symbolConfig.symbolId = s.symbolId)
    (hsorted : ∀ s ∈ symbols, s.activeOrders.Pairwise fun left right =>
      left.orderId ≤ right.orderId) :
    readSymbols.Takes ((symbolRows symbols).map joinFields) symbols :=
  (takes_readCount (by decide) h.size).bind (takes_symbolEntries h.each hkeyed hsorted [])

theorem takes_idempotencySnapshot {index : IdempotencyIndex} (h : index.Typed)
    (hkeyed : ∀ entry ∈ index.processedCommandIds.toList, entry.2.commandId = entry.1) :
    readIdempotencySnapshot.Takes ((idempotencySnapshotRows index).map joinFields) index := by
  have hcommands := takes_readSection (by decide : IsTag (ascii "idempotency_processed_commands"))
    h.processedCommandIds.size (takes_tableEntries
      (fun entry => ⟨isRow_processedCommandRow entry, rfl⟩)
      fun entry he before => addProcessedCommand_row (h.processedCommandIds.each entry he).2
        (h.processedCommandIds.each entry he).1 (hkeyed entry he) before)
  have hclients := takes_clientOrders (by decide : IsTag (ascii "idempotency_client_orders"))
    (by decide : IsTag (ascii "idempotency_client_order")) h.clientOrderIdToOrderId
    "duplicate idempotency client order id"
  have hids := takes_readSection (by decide : IsTag (ascii "idempotency_order_ids"))
    h.orderIds.size (takes_setEntries
      (fun orderId : OrderId => (⟨isRow_count (by decide) orderId, rfl⟩ :
        IsRow [ascii "idempotency_order_id", decimal orderId] ∧
          [ascii "idempotency_order_id", decimal orderId].head? =
            some (ascii "idempotency_order_id")))
      fun orderId hid before => addOrderId_row (h.orderIds.each orderId hid) _ before)
  rw [idempotencySnapshotRows, List.map_append, List.map_append, List.append_assoc]
  exact hcommands.bind (hclients.bind (hids.thenDone (f := fun orderIds =>
    (pure (⟨index.processedCommandIds, index.clientOrderIdToOrderId, orderIds⟩ :
      IdempotencyIndex) : ReaderM IdempotencyIndex)) (.pure index)))

end Core

section Runtime

/-- What a row of the public sequences adds to them. -/
def addPublicSequence (sequences : Std.ExtTreeMap MarketId EngineSequence) :
    List Text → Except Text (Std.ExtTreeMap MarketId EngineSequence)
  | [_, marketId, nextSequence] => do
    let marketId ← parseInt64 marketId
    let nextSequence ← parseUnsigned 64 nextSequence
    emplaceNew sequences marketId nextSequence "duplicate public sequence market id"
  | _ => throw fieldCountError

theorem addPublicSequence_row {entry : MarketId × EngineSequence}
    (h : FitsInt64 entry.1 ∧ entry.2 < 2 ^ 64)
    (sequences : Std.ExtTreeMap MarketId EngineSequence) :
    addPublicSequence sequences (publicSequenceRow entry) =
      emplaceNew sequences entry.1 entry.2 "duplicate public sequence market id" := by
  simp only [publicSequenceRow, addPublicSequence, parseInt64_text h.1, parseUnsigned_decimal h.2]
  rfl

theorem readPublicSequenceEntries_eq (count : ℕ)
    (sequences : Std.ExtTreeMap MarketId EngineSequence) :
    readPublicSequenceEntries count sequences =
      readEntries (ascii "public_sequence") addPublicSequence count sequences := by
  induction count generalizing sequences with
  | zero => rfl
  | succ count ih =>
    rw [readPublicSequenceEntries, readEntries]
    congr 1
    funext fields
    split
    · rename_i tag marketId nextSequence
      cases hid : parseInt64 marketId with
      | error e =>
        have hadd : addPublicSequence sequences [tag, marketId, nextSequence] = .error e := by
          rw [addPublicSequence, hid]
          rfl
        rw [hadd]
        rfl
      | ok id =>
        cases hnext : parseUnsigned 64 nextSequence with
        | error e =>
          have hadd : addPublicSequence sequences [tag, marketId, nextSequence] = .error e := by
            rw [addPublicSequence, hid, hnext]
            rfl
          rw [hadd]
          rfl
        | ok next =>
          have hadd : addPublicSequence sequences [tag, marketId, nextSequence] =
              emplaceNew sequences id next "duplicate public sequence market id" := by
            rw [addPublicSequence, hid, hnext]
            rfl
          rw [hadd, emplaceNew]
          by_cases hold : sequences.contains id
          · rw [if_pos hold]
            change (if _ then _ else _) = _
            rw [if_pos hold]
            rfl
          · rw [if_neg hold]
            change (if _ then _ else _) = _
            rw [if_neg hold, ih]
            rfl
    · rename_i hshape
      have hadd : addPublicSequence sequences fields = .error fieldCountError := by
        unfold addPublicSequence
        split
        · exact absurd rfl (hshape _ _ _)
        · rfl
      rw [hadd]
      rfl

theorem takes_readPublicSequences {sequences : Std.ExtTreeMap MarketId EngineSequence}
    (h : TypedEntries (fun entry => FitsInt64 entry.1 ∧ entry.2 < 2 ^ 64) sequences.toList) :
    readPublicSequences.Takes
      ((countedRows (ascii "public_sequences") publicSequenceRow sequences.toList).map joinFields)
      sequences := by
  have hall := takes_readSection (by decide : IsTag (ascii "public_sequences")) h.size
    (takes_tableEntries (fun entry => (⟨⟨_, _, rfl, by decide, by simp⟩, rfl⟩ :
        IsRow (publicSequenceRow entry) ∧
          (publicSequenceRow entry).head? = some (ascii "public_sequence")))
      fun entry he before => addPublicSequence_row (h.each entry he) before)
  have hsame : readPublicSequences = readSection (ascii "public_sequences")
      (ascii "public_sequence") addPublicSequence ∅ := by
    unfold readPublicSequences readSection
    simp only [readPublicSequenceEntries_eq]
  rw [hsame]
  exact hall

theorem takes_processedRequests {tag : Text} (htag : IsTag tag)
    {processed : Std.ExtTreeMap Text ProcessedRuntimeRequest}
    (h : TypedEntries (·.2.Typed) processed.toList) :
    (readProcessedRequests tag).Takes
      ((countedRows tag processedRequestRow processed.toList).map joinFields) processed :=
  takes_readSection htag h.size (takes_tableEntries
    (fun entry => ⟨isRow_processedRequestRow entry, rfl⟩)
    fun entry he before => addProcessedRequest_row (h.each entry he) before)

end Runtime
section Header
variable {checkpoint : StoredCheckpoint}

/-- A row of the header, whose fields are read at once. -/
theorem takes_headerRow {α : Type} {row : List Text} {tag : Text} {a : α} (hrow : IsRow row)
    (htag : row.head? = some tag) {take : List Text → ReaderM α} (h : (take row).Takes [] a) :
    (readFields tag >>= take).Takes [joinFields row] a :=
  (takes_row hrow htag).thenDone h

theorem takes_readMagic : readMagic.Takes [checkpointMagic] () := by
  have htext : lineText checkpointMagic = checkpointMagic := by decide
  have hline : readRawLine.Takes [checkpointMagic] (lineText checkpointMagic) :=
    takes_readRawLine checkpointMagic
  rw [htext] at hline
  refine hline.thenDone (f := fun magic =>
    if magic ≠ checkpointMagic then throw (ascii "invalid checkpoint magic")
    else (pure () : ReaderM Unit)) ?_
  rw [if_neg (not_not.2 rfl)]
  exact .pure ()

theorem takes_readSchemaVersion (h : checkpoint.schemaVersion < 2 ^ 32) :
    readSchemaVersion.Takes [joinFields [ascii "schema_version", decimal checkpoint.schemaVersion]]
      checkpoint.schemaVersion :=
  takes_headerRow (isRow_count (by decide) _) rfl (takes_liftExcept (parseUnsigned_decimal h))

theorem takes_readCheckpointId : readCheckpointId.Takes
    [joinFields [ascii "checkpoint_id", escapeField checkpoint.checkpointId]]
    checkpoint.checkpointId :=
  takes_headerRow ⟨_, _, rfl, by decide, by simp⟩ rfl
    (takes_liftExcept (unescapeField_escapeField _))

theorem takes_readSourcePosition {position : CheckpointSourcePosition}
    (hpartition : FitsInt32 position.partition) (hoffset : FitsInt64 position.nextOffset) :
    readSourcePosition.Takes [joinFields [ascii "source_position", escapeField position.topic,
      text position.partition, text position.nextOffset]] position :=
  takes_headerRow ⟨_, _, rfl, by decide, by simp⟩ rfl
    ((takes_liftExcept (unescapeField_escapeField _)).andThen
    ((takes_liftExcept (parseInt32_text hpartition)).andThen
    ((takes_liftExcept (parseInt64_text hoffset)).andThen (.pure position))))

theorem takes_readSequenceState {state : SequenceGenerator} (hsequence : state.nextSequence < 2 ^ 64)
    (htrade : state.nextTradeId < 2 ^ 64) (hevent : state.nextEventId < 2 ^ 64) :
    readSequenceState.Takes [joinFields [ascii "sequence_state", decimal state.nextSequence,
      decimal state.nextTradeId, decimal state.nextEventId]] state :=
  takes_headerRow ⟨_, _, rfl, by decide, by simp⟩ rfl
    ((takes_liftExcept (parseUnsigned_decimal hsequence)).andThen
    ((takes_liftExcept (parseUnsigned_decimal htrade)).andThen
    ((takes_liftExcept (parseUnsigned_decimal hevent)).andThen (.pure state))))

theorem takes_readEnd : readEnd.Takes [ascii "end"] () := by
  have hfields : (readFields (ascii "end")).Takes [ascii "end"] [ascii "end"] :=
    takes_readFields (by decide) rfl
  exact hfields.thenDone (f := fun fields : List Text =>
    if fields.length ≠ 1 then throw fieldCountError else (pure () : ReaderM Unit)) (.pure ())

end Header
section Checkpoint
variable {checkpoint : StoredCheckpoint}

/-- What the file keeps of the metadata: that of the active orders. -/
def StoredCheckpoint.activeMetadata (checkpoint : StoredCheckpoint) : OrderMetadataStore :=
  .ofList ((metadataEntries checkpoint).map fun metadata => (metadata.orderId, metadata))

/-- The lines of the sections after the public sequences, as the reader takes them. -/
theorem checkpointLines_eq (hsorted : sortedSymbolSnapshots checkpoint.coreSnapshot =
    checkpoint.coreSnapshot.symbolSnapshots) : checkpointLines checkpoint =
      [checkpointMagic] ++
      ([joinFields [ascii "schema_version", decimal checkpoint.schemaVersion]] ++
      ([joinFields [ascii "checkpoint_id", escapeField checkpoint.checkpointId]] ++
      ([joinFields [ascii "source_position", escapeField checkpoint.sourcePosition.topic,
        text checkpoint.sourcePosition.partition, text checkpoint.sourcePosition.nextOffset]] ++
      ([joinFields [ascii "sequence_state",
        decimal checkpoint.coreSnapshot.sequenceState.nextSequence,
        decimal checkpoint.coreSnapshot.sequenceState.nextTradeId,
        decimal checkpoint.coreSnapshot.sequenceState.nextEventId]] ++
      ((symbolRows checkpoint.coreSnapshot.symbolSnapshots).map joinFields ++
      ((idempotencySnapshotRows checkpoint.coreSnapshot.idempotencyState).map joinFields ++
      ((countedRows (ascii "public_sequences") publicSequenceRow
        checkpoint.publicSequences.toList).map joinFields ++
      ([joinFields [ascii "mark_prices", decimal checkpoint.markPrices.toList.length]] ++
      ((entryLines markPriceRow checkpoint.markPrices.toList ++
        [joinFields [ascii "funding_rates", decimal checkpoint.fundingRates.toList.length]]) ++
      ((entryLines fundingRateRow checkpoint.fundingRates.toList ++
        [joinFields [ascii "settled_funding_intervals",
          decimal checkpoint.settledFundingIntervals.toList.length]]) ++
      ((entryLines settledFundingIntervalRow checkpoint.settledFundingIntervals.toList ++
        [joinFields [ascii "positions", decimal checkpoint.positions.toList.length]]) ++
      ((entryLines positionRow checkpoint.positions.toList ++
        [joinFields [ascii "risk_states", decimal checkpoint.riskStates.toList.length]]) ++
      ((entryLines riskStateRow checkpoint.riskStates.toList ++
        [joinFields [ascii "metadata", decimal (metadataEntries checkpoint).length]]) ++
      (entryLines metadataRow (metadataEntries checkpoint) ++
      ((countedRows (ascii "processed_input_ids") processedRequestRow
        checkpoint.processedInputIds.toList).map joinFields ++
      ((countedRows (ascii "processed_idempotency_keys") processedRequestRow
        checkpoint.processedIdempotencyKeys.toList).map joinFields ++
      [ascii "end"])))))))))))))))) := by
  simp only [checkpointLines, checkpointRows, headerRows, hsorted, map_countedRows,
    List.map_append, List.map_cons, List.append_assoc, List.cons_append, List.nil_append]

theorem mem_metadataEntries {metadata : OrderMetadata} : metadata ∈ metadataEntries checkpoint ↔
    ∃ orderId, (∃ symbol ∈ checkpoint.coreSnapshot.symbolSnapshots,
      ∃ order ∈ symbol.activeOrders, order.orderId = orderId) ∧
        checkpoint.metadataStore[orderId]? = some metadata := by
  simp only [metadataEntries, List.mem_insertionSort, List.mem_filterMap, List.mem_eraseDups,
    List.mem_map, List.mem_flatMap]
  grind

/-- The key of an entry of the metadata is the id of its order. -/
theorem StoredCheckpoint.Keyed.orderId (h : checkpoint.Keyed) {orderId : OrderId}
    {metadata : OrderMetadata} (hm : checkpoint.metadataStore[orderId]? = some metadata) :
    metadata.orderId = orderId :=
  h.metadata (orderId, metadata) (Std.ExtTreeMap.mem_toList_iff_getElem?_eq_some.2 hm)

theorem nodup_metadataEntries (h : checkpoint.Keyed) :
    (((metadataEntries checkpoint).map fun metadata => (metadata.orderId, metadata)).map
      (·.1)).Nodup := by
  rw [List.map_map]
  refine (((List.perm_insertionSort _ _).map _).nodup_iff).2 ?_
  rw [List.map_filterMap]
  refine List.Nodup.filterMap (fun a b id ha hb => ?_) (nodup_eraseDups _)
  obtain ⟨m, hm, rfl⟩ := Option.map_eq_some_iff.1 ha
  obtain ⟨m', hm', hid⟩ := Option.map_eq_some_iff.1 hb
  exact (h.orderId hm).symm.trans (hid.symm.trans (h.orderId hm'))

theorem activeMetadata_getElem? (h : checkpoint.Keyed) {symbol : OrderBookSnapshot}
    (hs : symbol ∈ checkpoint.coreSnapshot.symbolSnapshots) {order : OrderSnapshot}
    (ho : order ∈ symbol.activeOrders) :
    checkpoint.activeMetadata[order.orderId]? = checkpoint.metadataStore[order.orderId]? := by
  apply Option.ext
  intro metadata
  rw [StoredCheckpoint.activeMetadata, getElem?_mapOfList (nodup_metadataEntries h)]
  constructor
  · intro hmem
    obtain ⟨m, hm, heq⟩ := List.mem_map.1 hmem
    obtain ⟨hid, rfl⟩ := Prod.mk.inj heq
    obtain ⟨orderId, -, hstored⟩ := mem_metadataEntries.1 hm
    have hkey := h.orderId hstored
    rwa [← hid, hkey]
  · intro hstored
    exact List.mem_map.2 ⟨metadata,
      mem_metadataEntries.2 ⟨order.orderId, ⟨symbol, hs, order, ho, rfl⟩, hstored⟩,
      by rw [h.orderId hstored]⟩

/-- The reader takes all the lines of a checkpoint, and has it back but for the metadata that no
active order has. -/
theorem takes_readCheckpoint (h : checkpoint.Typed) (hkeyed : checkpoint.Keyed) :
    readCheckpoint.Takes (checkpointLines checkpoint)
      { checkpoint with metadataStore := checkpoint.activeMetadata } := by
  have hsorted : sortedSymbolSnapshots checkpoint.coreSnapshot =
      checkpoint.coreSnapshot.symbolSnapshots :=
    List.Pairwise.insertionSort_eq hkeyed.sortedSymbols
  have hfirst : IsRow [ascii "mark_prices", decimal checkpoint.markPrices.toList.length] :=
    isRow_count (by decide) _
  have hmetadata := takes_keyedEntries (fun metadata => (metadata.orderId, metadata))
    (fun metadata => ⟨isRow_metadataRow metadata, rfl⟩) (nodup_metadataEntries hkeyed)
    fun metadata hm before => addMetadata_row (h.metadata.each metadata hm) before
  rw [checkpointLines_eq hsorted]
  exact takes_readMagic.bind ((takes_readSchemaVersion h.schemaVersion).bind
    (takes_readCheckpointId.bind ((takes_readSourcePosition h.partition h.nextOffset).bind
    ((takes_readSequenceState h.nextSequence h.nextTradeId h.nextEventId).bind
    ((takes_symbols h.symbols hkeyed.symbols hkeyed.sortedOrders).bind
    ((takes_idempotencySnapshot h.idempotency hkeyed.commands).bind
    ((takes_readPublicSequences h.publicSequences).bind ((takes_anyRow hfirst).bind
    ((takes_readOptionalSection h.markPrices.size
      (takes_tableEntries (fun entry => ⟨⟨_, _, rfl, by decide, by simp⟩, rfl⟩)
        fun entry he before => addMarkPrice_row (h.markPrices.each entry he)
          (hkeyed.markPrices entry he) before) (isRow_count (by decide) _)).bind
    ((takes_readOptionalSection h.fundingRates.size
      (takes_tableEntries (fun entry => ⟨⟨_, _, rfl, by decide, by simp⟩, rfl⟩)
        fun entry he before => addFundingRate_row (h.fundingRates.each entry he)
          (hkeyed.fundingRates entry he) before) (isRow_count (by decide) _)).bind
    ((takes_readOptionalSection h.settledFundingIntervals.size
      (takes_setEntries (fun key => ⟨⟨_, _, rfl, by decide, by simp⟩, rfl⟩)
        fun key hk before => addSettledFundingInterval_row
          (h.settledFundingIntervals.each key hk) before) (isRow_count (by decide) _)).bind
    ((takes_readOptionalSection h.positions.size
      (takes_tableEntries (fun entry => ⟨⟨_, _, rfl, by decide, by simp⟩, rfl⟩)
        fun entry he before => addPosition_row (h.positions.each entry he).1
          (h.positions.each entry he).2 before) (isRow_count (by decide) _)).bind
    ((takes_readOptionalSection h.riskStates.size
      (takes_tableEntries (fun entry => ⟨⟨_, _, rfl, by decide, by simp⟩, rfl⟩)
        fun entry he before => addRiskState_row (h.riskStates.each entry he).1
          (h.riskStates.each entry he).2 before) (isRow_count (by decide) _)).bind
    ((takes_liftExcept (countFromFields_row h.metadata.size)).andThen (hmetadata.bind
    ((takes_processedRequests (by decide) h.processedInputIds).bind
    ((takes_processedRequests (by decide) h.processedIdempotencyKeys).bind
    (takes_readEnd.thenDone (.pure _)))))))))))))))))))

theorem deserializeCheckpoint_writeCheckpoint (h : checkpoint.Typed) (hkeyed : checkpoint.Keyed) :
    deserializeCheckpoint (writeCheckpoint checkpoint) =
      .ok { checkpoint with metadataStore := checkpoint.activeMetadata } := by
  have hlines : linesOf 10 (writeCheckpoint checkpoint) = checkpointLines checkpoint :=
    linesOf_joinLines (not_mem_checkpointLines checkpoint (Or.inl rfl))
  have hread := takes_readCheckpoint h hkeyed []
  rw [List.append_nil] at hread
  rw [deserializeCheckpoint, hlines, hread]

end Checkpoint
end PerpexEngine
