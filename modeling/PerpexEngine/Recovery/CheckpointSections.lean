import PerpexEngine.Lib.Tables
import PerpexEngine.Recovery.CheckpointRows
import PerpexEngine.Recovery.CheckpointTruncation

/-! The sections of a checkpoint, read back: lists, tables and sets of rows behind their count. -/
namespace PerpexEngine
open Program

section Rows
variable {row : List Text} {tag : Text} {n : ℕ}

theorem IsRow.lineText (h : IsRow row) : lineText (joinFields row) = joinFields row :=
  if_neg fun hlast => h.not_mem (Or.inr rfl) (List.mem_of_getLast? hlast)

theorem takes_row (h : IsRow row) (htag : row.head? = some tag) :
    (readFields tag).Takes [joinFields row] row :=
  takes_readFields (by rw [h.lineText, h.splitLine_eq]) htag

theorem takes_anyRow (h : IsRow row) : readFieldsAny.Takes [joinFields row] row := by
  have hfields := (takes_readRawLine (joinFields row)).map splitLine
  have hline : splitLine (lineText (joinFields row)) = row := by rw [h.lineText, h.splitLine_eq]
  intro rest
  have hrun := hfields rest
  rw [map_eq_pure_bind] at hrun
  exact hrun.trans (by
    change (Except.ok (splitLine (lineText (joinFields row))), rest) = _
    rw [hline])

theorem isRow_count (h : IsTag tag) (n : ℕ) : IsRow [tag, decimal n] :=
  ⟨tag, [decimal n], rfl, h, by simp⟩

theorem takes_liftExcept {α : Type} {r : Except Text α} {a : α} (h : r = .ok a) :
    (liftExcept r : ReaderM α).Takes [] a := by
  rw [h]
  exact .pure a

theorem Takes.thenLift {α β : Type} {m : ReaderM α} {g : α → Except Text β} {lines : List Text}
    {a : α} {b : β} (h : m.Takes lines a) (hg : g a = .ok b) :
    (m >>= fun a => liftExcept (g a) : ReaderM β).Takes lines b :=
  h.thenDone (takes_liftExcept hg)

theorem takes_readCount (h : IsTag tag) (hn : n < 2 ^ 64) :
    (readCount tag).Takes [joinFields [tag, decimal n]] n := by
  have hcount : (liftExcept (parseUnsigned 64 (decimal n)) : ReaderM ℕ).Takes [] n :=
    takes_liftExcept (parseUnsigned_decimal hn)
  unfold readCount
  refine (takes_row (isRow_count h n) rfl).thenDone ?_
  exact hcount

end Rows

section Entries
variable {α γ : Type} {countTag entryTag : Text} {row : α → List Text}
  {add : γ → List Text → Except Text γ} {entries : List α}

/-- The lines of the rows of these entries. -/
def entryLines (row : α → List Text) (entries : List α) : List Text :=
  entries.map fun a => joinFields (row a)

/-- A loop that gathers the entries one by one ends with all of them. -/
theorem takes_readEntries (gathered : List α → γ)
    (hrow : ∀ a, IsRow (row a) ∧ (row a).head? = some entryTag)
    (hadd : ∀ done a rest, entries = done ++ a :: rest →
      add (gathered done) (row a) = .ok (gathered (done ++ [a]))) :
    (readEntries entryTag add entries.length (gathered [])).Takes (entryLines row entries)
      (gathered entries) := by
  have hloop : ∀ rest done, entries = done ++ rest →
      (readEntries entryTag add rest.length (gathered done)).Takes (entryLines row rest)
        (gathered entries) := by
    intro rest
    induction rest with
    | nil =>
      intro done hdone
      rw [hdone, List.append_nil]
      exact .pure _
    | cons a rest ih =>
      intro done hdone
      have hline := takes_row (hrow a).1 (hrow a).2
      have hnext := ih (done ++ [a]) (by rw [hdone, List.append_assoc, List.singleton_append])
      exact hline.bind ((takes_liftExcept (hadd done a rest hdone)).andThen hnext)
  exact hloop entries [] rfl

theorem map_countedRows : (countedRows countTag row entries).map joinFields =
    joinFields [countTag, decimal entries.length] :: entryLines row entries := by
  rw [countedRows, List.map_cons, List.map_map]
  rfl

theorem takes_readSection (htag : IsTag countTag) (hsize : entries.length < 2 ^ 64) {start a : γ}
    (h : (readEntries entryTag add entries.length start).Takes (entryLines row entries) a) :
    (readSection countTag entryTag add start).Takes
      ((countedRows countTag row entries).map joinFields) a := by
  rw [map_countedRows]
  exact (takes_readCount htag hsize).bind h

theorem countFromFields_row {tag : Text} {n : ℕ} (hn : n < 2 ^ 64) :
    countFromFields [tag, decimal n] tag = .ok n := by
  unfold countFromFields
  rw [if_pos List.head?_cons]
  exact parseUnsigned_decimal hn

/-- A section whose head has been read already, and the row after it. -/
theorem takes_readOptionalSection (hsize : entries.length < 2 ^ 64) {start a : γ}
    (h : (readEntries entryTag add entries.length start).Takes (entryLines row entries) a)
    {next : List Text} (hnext : IsRow next) :
    (readOptionalSection countTag entryTag add start [countTag, decimal entries.length]).Takes
      (entryLines row entries ++ [joinFields next]) (a, next) := by
  unfold readOptionalSection
  rw [if_pos List.head?_cons]
  exact (takes_liftExcept (countFromFields_row hsize)).andThen
    (h.bind ((takes_anyRow hnext).thenDone (f := fun next => pure (a, next)) (.pure (a, next))))

/-- A list of rows. -/
theorem takes_listEntries {add : List α → List Text → Except Text (List α)}
    (hrow : ∀ a, IsRow (row a) ∧ (row a).head? = some entryTag)
    (hadd : ∀ a ∈ entries, ∀ before, add before (row a) = .ok (before ++ [a])) :
    (readEntries entryTag add entries.length []).Takes (entryLines row entries) entries :=
  takes_readEntries id hrow fun done a _ hsplit =>
    hadd a (hsplit ▸ List.mem_append_right _ List.mem_cons_self) done

end Entries

section Tables
variable {α β κ : Type} [Ord κ] [Std.TransOrd κ] [Std.LawfulEqOrd κ] {entryTag : Text}
  {row : α → List Text} {entries : List α} {error : String}

/-- A table of rows, whose keys differ. -/
theorem takes_keyedEntries {add : Std.ExtTreeMap κ β → List Text →
      Except Text (Std.ExtTreeMap κ β)} (entry : α → κ × β)
    (hrow : ∀ a, IsRow (row a) ∧ (row a).head? = some entryTag)
    (hkeys : ((entries.map entry).map (·.1)).Nodup)
    (hadd : ∀ a ∈ entries, ∀ before,
      add before (row a) = emplaceNew before (entry a).1 (entry a).2 error) :
    (readEntries entryTag add entries.length ∅).Takes (entryLines row entries)
      (Std.ExtTreeMap.ofList (entries.map entry)) := by
  have hstart : (∅ : Std.ExtTreeMap κ β) = Std.ExtTreeMap.ofList (([] : List α).map entry) :=
    Std.ExtTreeMap.ofList_nil.symm
  rw [hstart]
  refine takes_readEntries (fun done => Std.ExtTreeMap.ofList (done.map entry)) hrow
    fun done a rest hsplit => ?_
  rw [hsplit, List.map_append, List.map_cons] at hkeys
  have hnew := contains_mapOfList hkeys
  rw [hadd a (hsplit ▸ List.mem_append_right _ List.mem_cons_self), emplaceNew, hnew,
    List.map_append, List.map_singleton, mapOfList_snoc]
  rfl

theorem takes_tableEntries {table : Std.ExtTreeMap κ β} {row : κ × β → List Text}
    {add : Std.ExtTreeMap κ β → List Text → Except Text (Std.ExtTreeMap κ β)}
    (hrow : ∀ a, IsRow (row a) ∧ (row a).head? = some entryTag)
    (hadd : ∀ a ∈ table.toList, ∀ before, add before (row a) = emplaceNew before a.1 a.2 error) :
    (readEntries entryTag add table.toList.length ∅).Takes (entryLines row table.toList)
      table := by
  have h := takes_keyedEntries id hrow (by rw [List.map_id]; exact nodup_keys table) hadd
  rw [List.map_id, mapOfList_toList] at h
  exact h

theorem takes_setEntries {set : Std.ExtTreeSet κ} {row : κ → List Text}
    {add : Std.ExtTreeSet κ → List Text → Except Text (Std.ExtTreeSet κ)}
    (hrow : ∀ a, IsRow (row a) ∧ (row a).head? = some entryTag)
    (hadd : ∀ a ∈ set.toList, ∀ before, add before (row a) = insertNew before a error) :
    (readEntries entryTag add set.toList.length ∅).Takes (entryLines row set.toList) set := by
  have hgathers : ∀ done a rest, set.toList = done ++ a :: rest →
      add (Std.ExtTreeSet.ofList done) (row a) = .ok (Std.ExtTreeSet.ofList (done ++ [a])) := by
    intro done a rest hsplit
    have hkeys := nodup_toList set
    rw [hsplit] at hkeys
    rw [hadd a (hsplit ▸ List.mem_append_right _ List.mem_cons_self), insertNew,
      contains_setOfList hkeys, setOfList_snoc]
    rfl
  have hall := takes_readEntries (fun done => Std.ExtTreeSet.ofList done) hrow hgathers
  rw [setOfList_toList, Std.ExtTreeSet.ofList_nil] at hall
  exact hall

end Tables
end PerpexEngine
