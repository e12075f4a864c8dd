import PerpexEngine.Recovery.CheckpointReader

/-! A checkpoint file that was cut off: the reader asks for the last line, which no beginning of the
file has. -/
namespace PerpexEngine
open Program

section Consumes

theorem consumes_liftExcept {α : Type} (r : Except Text α) :
    Consumes (liftExcept r : ReaderM α) := by
  cases r with
  | ok a => exact .pure a
  | error e => exact .throw e

theorem takes_readRawLine (line : Text) :
    readRawLine.Takes [line] (if line.getLast? = some 13 then line.dropLast else line) :=
  fun _ => rfl

theorem consumes_readRawLine : readRawLine.Consumes := by
  rintro (_ | ⟨line, lines⟩) a rest h
  · exact nomatch (Prod.mk.inj h).1
  · obtain ⟨hline, hrest⟩ := Prod.mk.inj h
    cases hline
    cases hrest
    exact ⟨[line], rfl, takes_readRawLine line⟩

theorem consumes_readFieldsAny : readFieldsAny.Consumes :=
  consumes_readRawLine.bind fun _ => .pure _

theorem consumes_readFields (expectedTag : Text) : (readFields expectedTag).Consumes :=
  consumes_readRawLine.bind fun _ => .ite (.pure _) (.throw _)

theorem consumes_readCount (expectedTag : Text) : (readCount expectedTag).Consumes := by
  refine (consumes_readFields expectedTag).bind fun fields => ?_
  split
  · exact consumes_liftExcept _
  · exact .throw _

theorem consumes_readEntries {γ : Type} (entryTag : Text) (add : γ → List Text → Except Text γ)
    (count : ℕ) (entries : γ) : (readEntries entryTag add count entries).Consumes := by
  induction count generalizing entries with
  | zero => exact .pure entries
  | succ count ih =>
    exact (consumes_readFields entryTag).bind fun _ => (consumes_liftExcept _).bind fun _ => ih _

theorem consumes_readSection {γ : Type} (countTag entryTag : Text)
    (add : γ → List Text → Except Text γ) (start : γ) :
    (readSection countTag entryTag add start).Consumes :=
  (consumes_readCount countTag).bind fun _ => consumes_readEntries _ _ _ _

theorem consumes_readOptionalSection {γ : Type} (countTag entryTag : Text)
    (add : γ → List Text → Except Text γ) (absent : γ) (fields : List Text) :
    (readOptionalSection countTag entryTag add absent fields).Consumes :=
  .ite
    ((consumes_liftExcept _).bind fun _ => (consumes_readEntries _ _ _ _).bind fun _ =>
      consumes_readFieldsAny.bind fun _ => .pure _)
    (.pure _)

theorem consumes_readSymbolEntries (count : ℕ) (symbols : List OrderBookSnapshot) :
    (readSymbolEntries count symbols).Consumes := by
  have hconfig : readSymbolConfig.Consumes :=
    (consumes_readFields _).bind fun _ => consumes_liftExcept _
  induction count generalizing symbols with
  | zero => exact .pure symbols
  | succ count ih =>
    exact hconfig.bind fun _ => (consumes_readSection _ _ _ _).bind fun _ =>
      (consumes_readSection _ _ _ _).bind fun _ => (consumes_readSection _ _ _ _).bind fun _ =>
        (consumes_readSection _ _ _ _).bind fun _ => ih _

theorem consumes_readSymbols : readSymbols.Consumes :=
  (consumes_readCount _).bind fun _ => consumes_readSymbolEntries _ _

theorem consumes_readIdempotencySnapshot : readIdempotencySnapshot.Consumes :=
  (consumes_readSection _ _ _ _).bind fun _ => (consumes_readSection _ _ _ _).bind fun _ =>
    (consumes_readSection _ _ _ _).bind fun _ => .pure _

theorem consumes_readPublicSequenceEntries (count : ℕ)
    (sequences : Std.ExtTreeMap MarketId EngineSequence) :
    (readPublicSequenceEntries count sequences).Consumes := by
  induction count generalizing sequences with
  | zero => exact .pure sequences
  | succ count ih =>
    refine (consumes_readFields _).bind fun fields => ?_
    split
    · exact (consumes_liftExcept _).bind fun _ => (consumes_liftExcept _).bind fun _ =>
        .ite (.throw _) (ih _)
    · exact .throw _

theorem consumes_readPublicSequences : readPublicSequences.Consumes :=
  (consumes_readCount _).bind fun _ => consumes_readPublicSequenceEntries _ _

/-- A line with a header is read and its fields are taken apart. -/
theorem consumes_header {α : Type} {tag : Text} {take : List Text → ReaderM α}
    (htake : ∀ fields, (take fields).Consumes) : (readFields tag >>= take).Consumes :=
  (consumes_readFields tag).bind htake

theorem consumes_readSchemaVersion : readSchemaVersion.Consumes := by
  refine consumes_header fun fields => ?_
  split
  · exact consumes_liftExcept _
  · exact .throw _

theorem consumes_readCheckpointId : readCheckpointId.Consumes := by
  refine consumes_header fun fields => ?_
  split
  · exact consumes_liftExcept _
  · exact .throw _

theorem consumes_readSourcePosition : readSourcePosition.Consumes := by
  refine consumes_header fun fields => ?_
  split
  · exact (consumes_liftExcept _).bind fun _ => (consumes_liftExcept _).bind fun _ =>
      (consumes_liftExcept _).bind fun _ => .pure _
  · exact .throw _

theorem consumes_readSequenceState : readSequenceState.Consumes := by
  refine consumes_header fun fields => ?_
  split
  · exact (consumes_liftExcept _).bind fun _ => (consumes_liftExcept _).bind fun _ =>
      (consumes_liftExcept _).bind fun _ => .pure _
  · exact .throw _

theorem consumes_readMagic : readMagic.Consumes :=
  consumes_readRawLine.bind fun _ => .ite (.throw _) (.pure _)

end Consumes

section End

theorem splitLine_ne_nil (line : Text) : splitLine line ≠ [] := by
  cases line with
  | nil => exact List.cons_ne_nil _ _
  | cons b line =>
    rw [splitLine]
    split
    · exact List.cons_ne_nil _ _
    · split <;> exact List.cons_ne_nil _ _

/-- A line of one field is that field. -/
theorem eq_of_splitLine {line field : Text} (h : splitLine line = [field]) : line = field := by
  induction line generalizing field with
  | nil => exact (List.cons.inj h).1
  | cons b line ih =>
    rw [splitLine] at h
    split at h
    · exact absurd (List.cons.inj h).2 (splitLine_ne_nil line)
    · split at h
      · rename_i hnil
        exact absurd hnil (splitLine_ne_nil line)
      · rename_i hfields
        obtain ⟨hfield, hrest⟩ := List.cons.inj h
        rw [hrest] at hfields
        rw [ih hfields, hfield]

/-- A line as the reader sees it: without a carriage return at its end. -/
def lineText (line : Text) : Text := if line.getLast? = some 13 then line.dropLast else line

theorem lineText_prefix (line : Text) : lineText line <+: line := by
  unfold lineText
  split
  · exact List.dropLast_prefix line
  · exact List.prefix_rfl

theorem takes_readFields {line tag : Text} {fields : List Text}
    (hfields : splitLine (lineText line) = fields) (htag : fields.head? = some tag) :
    (readFields tag).Takes [line] fields := by
  intro rest
  subst hfields
  change ((if (splitLine (lineText line)).head? = some tag then
    (pure (splitLine (lineText line)) : ReaderM (List Text)) else throw _).run.run rest) = _
  rw [if_pos htag]
  rfl

theorem readFields_eq_ok {tag : Text} {lines rest : List Text} {fields : List Text}
    (h : (readFields tag).run.run lines = (.ok fields, rest)) : ∃ line, lines = line :: rest ∧
      splitLine (lineText line) = fields ∧ fields.head? = some tag := by
  cases lines with
  | nil => exact nomatch (Prod.mk.inj h).1
  | cons line lines =>
    change ((if (splitLine (lineText line)).head? = some tag then
      (pure (splitLine (lineText line)) : ReaderM (List Text)) else throw _).run.run lines) = _ at h
    split at h
    · rename_i htag
      obtain ⟨hfields, hrest⟩ := Prod.mk.inj h
      cases hfields
      cases hrest
      exact ⟨line, rfl, rfl, htag⟩
    · exact nomatch (Prod.mk.inj h).1

/-- The last line read begins as the last line of the file does. -/
theorem endsOn_readEnd : readEnd.EndsOn (ascii "end" <+: ·) := by
  intro lines a rest h
  obtain ⟨fields, between, hread, hend⟩ := run_bind_eq_ok h
  obtain ⟨line, rfl, hfields, htag⟩ := readFields_eq_ok hread
  have hlength : fields.length = 1 := by
    by_contra hlength
    rw [if_pos hlength] at hend
    exact nomatch (Prod.mk.inj hend).1
  rw [if_neg (not_not.2 hlength)] at hend
  obtain rfl := (Prod.mk.inj hend).2
  obtain ⟨field, rfl⟩ := List.length_eq_one_iff.1 hlength
  refine ⟨[], line, rfl, ?_, (takes_readFields hfields htag).bind ?_⟩
  · rw [← Option.some.inj htag, ← eq_of_splitLine hfields]
    exact lineText_prefix line
  · rw [if_neg (not_not.2 hlength)]
    exact .pure ()

/-- What follows the end of a file does not matter to it. -/
theorem EndsOn.andPure {α β : Type} {m : ReaderM α} {P : Text → Prop} (h : m.EndsOn P)
    (f : α → β) : (m >>= fun a => pure (f a)).EndsOn P := by
  intro lines b rest hrun
  obtain ⟨a, between, hm, hpure⟩ := run_bind_eq_ok hrun
  obtain ⟨rfl, rfl⟩ : b = f a ∧ rest = between := by
    obtain ⟨hb, hrest⟩ := Prod.mk.inj hpure
    exact ⟨(Except.ok.inj hb).symm, hrest.symm⟩
  obtain ⟨used, last, rfl, hlast, htakes⟩ := h lines a rest hm
  refine ⟨used, last, rfl, hlast, ?_⟩
  have hall := htakes.bind (f := fun a => pure (f a)) (Takes.pure (f a))
  rw [List.append_nil] at hall
  exact hall

theorem endsOn_readCheckpoint : readCheckpoint.EndsOn (ascii "end" <+: ·) := by
  unfold readCheckpoint
  refine .bind consumes_readMagic fun _ => .bind consumes_readSchemaVersion fun _ =>
    .bind consumes_readCheckpointId fun _ => .bind consumes_readSourcePosition fun _ =>
    .bind consumes_readSequenceState fun _ => .bind consumes_readSymbols fun _ =>
    .bind consumes_readIdempotencySnapshot fun _ => .bind consumes_readPublicSequences fun _ =>
    .bind consumes_readFieldsAny fun _ => .bind (consumes_readOptionalSection _ _ _ _ _) fun _ =>
    .bind (consumes_readOptionalSection _ _ _ _ _) fun _ =>
    .bind (consumes_readOptionalSection _ _ _ _ _) fun _ =>
    .bind (consumes_readOptionalSection _ _ _ _ _) fun _ =>
    .bind (consumes_readOptionalSection _ _ _ _ _) fun _ =>
    .bind (consumes_liftExcept _) fun _ => .bind (consumes_readEntries _ _ _ _) fun _ =>
    .bind (consumes_readSection _ _ _ _) fun _ => .bind (consumes_readSection _ _ _ _) fun _ => ?_
  exact EndsOn.andPure endsOn_readEnd _

/-- The lines before the last one do not begin as it does. -/
theorem eq_end_of_cut {checkpoint : StoredCheckpoint} {whole rest : List Text} {line : Text}
    (hlines : checkpointLines checkpoint = whole ++ line :: rest) (hend : ascii "end" <+: line) :
    rest = [] ∧ line = ascii "end" := by
  rcases List.eq_nil_or_concat rest with rfl | ⟨others, last, rfl⟩
  · have hlast : checkpointMagic :: (checkpointRows checkpoint).map joinFields ++ [ascii "end"] =
        whole ++ [line] := hlines
    exact ⟨rfl, (List.singleton_inj.1 (List.append_inj' hlast rfl).2).symm⟩
  · have hbefore : checkpointMagic :: (checkpointRows checkpoint).map joinFields ++
        [ascii "end"] = (whole ++ line :: others) ++ [last] := by
      rw [List.concat_eq_append] at hlines
      rw [List.append_assoc]
      exact hlines
    have hmem : line ∈ checkpointMagic :: (checkpointRows checkpoint).map joinFields := by
      rw [(List.append_inj' hbefore rfl).1]
      exact List.mem_append_right _ List.mem_cons_self
    rcases List.mem_cons.1 hmem with rfl | hmem
    · exact absurd hend (by decide)
    · obtain ⟨r, hr, rfl⟩ := List.mem_map.1 hmem
      exact absurd hend (isRow_checkpointRows checkpoint r hr).not_end

/-- Where a beginning of a file is read at all, the file is read the same. -/
theorem readCheckpoint_cut {checkpoint : StoredCheckpoint} {p : Text}
    (hp : p <+: writeCheckpoint checkpoint) {result : StoredCheckpoint}
    (h : deserializeCheckpoint p = .ok result) :
    deserializeCheckpoint (writeCheckpoint checkpoint) = .ok result := by
  have hbreaks := not_mem_checkpointLines checkpoint (b := 10) (Or.inl rfl)
  have hrun : (readCheckpoint.run.run (linesOf 10 p)).1 = .ok result := h
  rcases hread : readCheckpoint.run.run (linesOf 10 p) with ⟨r, rest⟩
  rw [hread] at hrun
  obtain rfl : r = .ok result := hrun
  obtain ⟨used, last, hused, hlast, htakes⟩ := endsOn_readCheckpoint _ _ _ hread
  have hall : checkpointLines checkpoint = used ++ [last] → deserializeCheckpoint
      (writeCheckpoint checkpoint) = .ok result := by
    intro hlines
    unfold deserializeCheckpoint writeCheckpoint
    rw [linesOf_joinLines hbreaks, hlines, ← List.append_nil (used ++ [last]), htakes]
  obtain ⟨whole, cut, hcut, ⟨rfl, more, hmore⟩ | ⟨q, line, others, rfl, hlines, hq⟩⟩ :=
    linesOf_cut hbreaks hp
  · rw [List.append_nil, hused] at hcut
    have hlines : checkpointLines checkpoint = used ++ last :: (rest ++ more) := by
      rw [← hmore, ← hcut, List.append_assoc, List.cons_append]
    have hnone := (eq_end_of_cut hlines hlast).1
    rw [hnone] at hlines
    exact hall hlines
  · rw [hused] at hcut
    rcases List.eq_nil_or_concat rest with rfl | ⟨before, final, rfl⟩
    · obtain ⟨rfl, hsame⟩ := List.append_inj' hcut rfl
      obtain rfl := List.singleton_inj.1 hsame
      obtain ⟨rfl, rfl⟩ := eq_end_of_cut hlines (hlast.trans hq)
      have hend : last = ascii "end" := hq.eq_of_length_le hlast.length_le
      exact hall (hlines.trans (by rw [hend]))
    · rw [List.concat_eq_append, ← List.cons_append, ← List.append_assoc] at hcut
      obtain ⟨rfl, -⟩ := List.append_inj' hcut rfl
      rw [List.append_assoc, List.cons_append] at hlines
      exact absurd (eq_end_of_cut hlines hlast).1 (by simp)

/-- A checkpoint that was cut off anywhere is refused, or it is read as the whole one. -/
theorem truncated_checkpoint (checkpoint : EngineCheckpoint) (n : ℕ) :
    tryDeserializeCheckpoint ((serializeCheckpoint checkpoint).take n) = none ∨
      tryDeserializeCheckpoint ((serializeCheckpoint checkpoint).take n) =
        tryDeserializeCheckpoint (serializeCheckpoint checkpoint) := by
  cases h : deserializeCheckpoint ((serializeCheckpoint checkpoint).take n) with
  | error e =>
    left
    rw [tryDeserializeCheckpoint, h]
    rfl
  | ok result =>
    right
    have hwhole := readCheckpoint_cut (List.take_prefix n _) h
    rw [tryDeserializeCheckpoint, tryDeserializeCheckpoint, h]
    exact congrArg Except.toOption hwhole.symm

end End
end PerpexEngine
