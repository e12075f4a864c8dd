import PerpexEngine.Recovery.LatestCheckpoint

/-! A save of the file store call by call, cut short anywhere: what is left in the directory. -/
namespace PerpexEngine

/-- How the file system answers the next call: it is done, a part of the text was written, or it
failed. -/
inductive FileAnswer where
  | done
  | wrote (length : ℕ)
  | error (message : Text)
deriving DecidableEq, Repr

/-- The call that a save is about to make, or how it ended. -/
inductive SavePoint where
  | createDirectories
  | openTemp
  | writeTemp (written : ℕ)
  | rename
  | removeFinal
  | renameAgain
  | removeTemp (message : Text)
  | saved
  | threw (message : Text)
deriving DecidableEq, Repr

structure SaveState where
  point : SavePoint
  directory : Option (List DirectoryEntry)
deriving DecidableEq, Repr

section Save

def removeFile (directory : List DirectoryEntry) (filename : Text) : List DirectoryEntry :=
  directory.filter fun entry => entry.filename ≠ filename

def tempFilename (filename : Text) : Text := filename ++ ascii ".tmp"

def commitError (message : Text) : Text :=
  ascii "failed to commit checkpoint file: " ++ message

/-- One call of `FileCheckpointStore::save`, given its answer. A directory that is not there is
created. -/
def SaveState.next (filename content : Text) (state : SaveState) (answer : FileAnswer) :
    SaveState :=
  let temp := tempFilename filename
  let update (f : List DirectoryEntry → List DirectoryEntry) := state.directory.map f
  match state.point, answer with
  | .createDirectories, .done => ⟨.openTemp, some (state.directory.getD [])⟩
  | .createDirectories, .error message =>
    ⟨.threw (ascii "failed to create checkpoint directory: " ++ message), state.directory⟩
  | .openTemp, .done => ⟨.writeTemp 0, update (writeFile · temp [])⟩
  | .openTemp, .error _ =>
    ⟨.threw (ascii "failed to open checkpoint temp file"), state.directory⟩
  | .writeTemp written, .wrote length =>
    ⟨.writeTemp (written + length), update (writeFile · temp (content.take (written + length)))⟩
  | .writeTemp _, .done => ⟨.rename, update (writeFile · temp content)⟩
  | .writeTemp _, .error _ =>
    ⟨.threw (ascii "failed to write checkpoint temp file"), state.directory⟩
  | .rename, .done => ⟨.saved, update (renameFile · temp filename)⟩
  | .rename, .error _ => ⟨.removeFinal, state.directory⟩
  | .removeFinal, .done => ⟨.renameAgain, update (removeFile · filename)⟩
  | .removeFinal, .error _ => ⟨.renameAgain, state.directory⟩
  | .renameAgain, .done => ⟨.saved, update (renameFile · temp filename)⟩
  | .renameAgain, .error message => ⟨.removeTemp message, state.directory⟩
  | .removeTemp message, .done => ⟨.threw (commitError message), update (removeFile · temp)⟩
  | .removeTemp message, .error _ => ⟨.threw (commitError message), state.directory⟩
  | _, _ => state

/-- A save up to where the answers end: there it has returned or thrown, or the process died. -/
def FileCheckpointStore.trySave (serialize : EngineCheckpoint → Text)
    (directory : Option (List DirectoryEntry)) (checkpoint : EngineCheckpoint)
    (answers : List FileAnswer) : SaveState :=
  answers.foldl
    (SaveState.next (checkpointFilenameForId checkpoint.checkpointId) (serialize checkpoint))
    ⟨.createDirectories, directory⟩

/-- The first rename failed, and no other one went through. -/
def SavePoint.FellBack : SavePoint → Prop
  | renameAgain => True
  | removeTemp _ => True
  | threw message => ∃ reason, message = commitError reason
  | _ => False

end Save

section Calls
variable {filename content : Text} {original directory : List DirectoryEntry}
  {state : SaveState}

def SaveState.entries (state : SaveState) : List DirectoryEntry := state.directory.getD []

/-- Nothing but the temporary file has changed. -/
def Untouched (filename : Text) (original : List DirectoryEntry) (state : SaveState) : Prop :=
  ∀ x, x.filename ≠ tempFilename filename → (x ∈ state.entries ↔ x ∈ original)

/-- The file of the final name is gone, and nothing else but the temporary file has changed. -/
def Removed (filename : Text) (original : List DirectoryEntry) (state : SaveState) : Prop :=
  ∀ x, x.filename ≠ tempFilename filename →
    (x ∈ state.entries ↔ x ∈ original ∧ x.filename ≠ filename)

/-- The temporary file has the whole text. -/
def Written (filename content : Text) (state : SaveState) : Prop :=
  ∀ x, x.filename = tempFilename filename →
    (x ∈ state.entries ↔ x = ⟨tempFilename filename, true, some content⟩)

/-- The file of the final name has the whole text, and there is no temporary file. -/
def Committed (filename content : Text) (original : List DirectoryEntry) (state : SaveState) :
    Prop :=
  ∀ x, x ∈ state.entries ↔ x = ⟨filename, true, some content⟩ ∨
    x ∈ original ∧ x.filename ≠ filename ∧ x.filename ≠ tempFilename filename

/-- What is in the directory at each point of a save. -/
def SaveState.Holds (filename content : Text) (original : List DirectoryEntry)
    (state : SaveState) : Prop :=
  match state.point with
  | .createDirectories => Untouched filename original state
  | .openTemp => state.directory.isSome ∧ Untouched filename original state
  | .writeTemp _ => state.directory.isSome ∧ Untouched filename original state
  | .rename => Untouched filename original state ∧ Written filename content state
  | .removeFinal => Untouched filename original state ∧ Written filename content state
  | .renameAgain => (Untouched filename original state ∨ Removed filename original state) ∧
      Written filename content state
  | .removeTemp _ => Untouched filename original state ∨ Removed filename original state
  | .saved => Committed filename content original state
  | .threw message => Untouched filename original state ∨
      Removed filename original state ∧ ∃ reason, message = commitError reason

theorem tempFilename_ne : tempFilename filename ≠ filename := by
  intro h
  have hlength := congrArg List.length h
  rw [tempFilename, List.length_append] at hlength
  exact absurd hlength (by rw [show (ascii ".tmp").length = 4 from rfl]; omega)

theorem mem_writeFile {name : Text} {x : DirectoryEntry} : x ∈ writeFile directory name content ↔
    x = ⟨name, true, some content⟩ ∨ x ∈ directory ∧ x.filename ≠ name := by
  simp [writeFile, or_comm]

theorem mem_removeFile {name : Text} {x : DirectoryEntry} :
    x ∈ removeFile directory name ↔ x ∈ directory ∧ x.filename ≠ name := by
  simp [removeFile]

theorem Untouched.write (h : Untouched filename original state) (text : Text) (point : SavePoint) :
    Untouched filename original
      ⟨point, state.directory.map (writeFile · (tempFilename filename) text)⟩ := by
  intro x hx
  rw [← h x hx]
  unfold SaveState.entries
  cases state.directory with
  | none => rfl
  | some directory =>
    change x ∈ writeFile directory _ _ ↔ x ∈ directory
    rw [mem_writeFile, and_iff_left hx]
    refine or_iff_right ?_
    rintro rfl
    exact hx rfl

theorem written_write (h : state.directory.isSome) (content : Text) (point : SavePoint) :
    Written filename content
      ⟨point, state.directory.map (writeFile · (tempFilename filename) content)⟩ := by
  intro x hx
  obtain ⟨directory, hdirectory⟩ := Option.isSome_iff_exists.1 h
  unfold SaveState.entries
  rw [hdirectory]
  change x ∈ writeFile directory _ _ ↔ _
  rw [mem_writeFile]
  exact or_iff_left fun hold => hold.2 hx

/-- Removing the final file leaves the temporary one. -/
theorem Written.remove (h : Written filename content state) (point : SavePoint) :
    Written filename content ⟨point, state.directory.map (removeFile · filename)⟩ := by
  intro x hx
  rw [← h x hx]
  unfold SaveState.entries
  cases state.directory with
  | none => rfl
  | some directory =>
    change x ∈ removeFile directory _ ↔ x ∈ directory
    rw [mem_removeFile, hx]
    exact and_iff_left tempFilename_ne

theorem Untouched.remove (h : Untouched filename original state) (point : SavePoint) :
    Removed filename original ⟨point, state.directory.map (removeFile · filename)⟩ := by
  intro x hx
  rw [← h x hx]
  unfold SaveState.entries
  cases state.directory with
  | none => simp
  | some directory => exact mem_removeFile

/-- Whatever else was done, the other files stand. -/
theorem mem_entries_iff (h : Untouched filename original state ∨ Removed filename original state)
    {x : DirectoryEntry} (htemp : x.filename ≠ tempFilename filename)
    (hfinal : x.filename ≠ filename) : x ∈ state.entries ↔ x ∈ original := by
  rcases h with h | h
  · exact h x htemp
  · rw [h x htemp]
    exact and_iff_left hfinal

theorem Written.commit (h : Written filename content state)
    (hothers : Untouched filename original state ∨ Removed filename original state)
    (point : SavePoint) : Committed filename content original
      ⟨point, state.directory.map (renameFile · (tempFilename filename) filename)⟩ := by
  have hmoved : (⟨tempFilename filename, true, some content⟩ : DirectoryEntry) ∈ state.entries :=
    (h _ rfl).2 rfl
  have hentries : SaveState.entries
      ⟨point, state.directory.map (renameFile · (tempFilename filename) filename)⟩ =
        renameFile state.entries (tempFilename filename) filename := by
    unfold SaveState.entries
    cases state.directory <;> rfl
  intro x
  rw [hentries, renameFile, List.mem_map]
  constructor
  · rintro ⟨entry, hentry, rfl⟩
    obtain ⟨hentry, hfinal⟩ := List.mem_filter.1 hentry
    have hfinal : entry.filename ≠ filename := of_decide_eq_true hfinal
    by_cases htemp : entry.filename = tempFilename filename
    · rw [if_pos htemp, (h entry htemp).1 hentry]
      exact .inl rfl
    · rw [if_neg htemp]
      exact .inr ⟨(mem_entries_iff hothers htemp hfinal).1 hentry, hfinal, htemp⟩
  · rintro (rfl | ⟨hx, hfinal, htemp⟩)
    · exact ⟨_, List.mem_filter.2 ⟨hmoved, decide_eq_true tempFilename_ne⟩, if_pos rfl⟩
    · refine ⟨x, List.mem_filter.2 ⟨?_, decide_eq_true hfinal⟩, if_neg htemp⟩
      exact (mem_entries_iff hothers htemp hfinal).2 hx

/-- Removing the temporary file changes none of the others. -/
theorem SaveState.entries_removeTemp {x : DirectoryEntry}
    (hx : x.filename ≠ tempFilename filename) (point : SavePoint) :
    x ∈ SaveState.entries ⟨point, state.directory.map (removeFile · (tempFilename filename))⟩ ↔
      x ∈ state.entries := by
  unfold SaveState.entries
  cases state.directory with
  | none => rfl
  | some directory =>
    change x ∈ removeFile directory _ ↔ x ∈ directory
    rw [mem_removeFile]
    exact and_iff_left hx

/-- One call keeps what is known of the directory, however it is answered. -/
theorem SaveState.Holds.next (h : state.Holds filename content original) (answer : FileAnswer) :
    (state.next filename content answer).Holds filename content original := by
  obtain ⟨point, directory⟩ := state
  cases point with
  | createDirectories =>
    cases answer with
    | done => exact ⟨rfl, h⟩
    | wrote length => exact h
    | error message => exact .inl h
  | openTemp =>
    cases answer with
    | done => exact ⟨by simpa [SaveState.next] using h.1, h.2.write [] _⟩
    | wrote length => exact h
    | error message => exact .inl h.2
  | writeTemp written =>
    cases answer with
    | done => exact ⟨h.2.write content _, written_write h.1 content _⟩
    | wrote length => exact ⟨by simpa [SaveState.next] using h.1, h.2.write _ _⟩
    | error message => exact .inl h.2
  | rename =>
    cases answer with
    | done => exact h.2.commit (.inl h.1) _
    | wrote length => exact h
    | error message => exact h
  | removeFinal =>
    cases answer with
    | done => exact ⟨.inr (h.1.remove _), h.2.remove _⟩
    | wrote length => exact h
    | error message => exact ⟨.inl h.1, h.2⟩
  | renameAgain =>
    cases answer with
    | done => exact h.2.commit h.1 _
    | wrote length => exact h
    | error message => exact h.1
  | removeTemp message =>
    cases answer with
    | done =>
      rcases h with h | h
      · exact .inl fun x hx => (entries_removeTemp hx _).trans (h x hx)
      · exact .inr ⟨fun x hx => (entries_removeTemp hx _).trans (h x hx), message, rfl⟩
    | wrote length => exact h
    | error reason => exact h.imp id fun h => ⟨h, message, rfl⟩
  | saved => cases answer <;> exact h
  | threw message => cases answer <;> exact h

end Calls

section Saves
variable {serialize : EngineCheckpoint → Text} {directory : Option (List DirectoryEntry)}
  {checkpoint : EngineCheckpoint} {topic : Text} {partition : ℤ}

theorem holds_trySave (serialize : EngineCheckpoint → Text)
    (directory : Option (List DirectoryEntry)) (checkpoint : EngineCheckpoint)
    (answers : List FileAnswer) :
    (FileCheckpointStore.trySave serialize directory checkpoint answers).Holds
      (checkpointFilenameForId checkpoint.checkpointId) (serialize checkpoint)
      (directory.getD []) := by
  have hrun : ∀ (answers : List FileAnswer) (state : SaveState),
      state.Holds (checkpointFilenameForId checkpoint.checkpointId) (serialize checkpoint)
        (directory.getD []) →
      (answers.foldl (SaveState.next (checkpointFilenameForId checkpoint.checkpointId)
        (serialize checkpoint)) state).Holds
          (checkpointFilenameForId checkpoint.checkpointId) (serialize checkpoint)
          (directory.getD []) := by
    intro answers
    induction answers with
    | nil => exact fun _ h => h
    | cons answer answers ih => exact fun state h => ih _ (h.next answer)
  exact hrun answers _ fun _ _ => Iff.rfl

/-- A temporary file is not taken for a checkpoint. -/
theorem DirectoryEntry.IsCheckpoint.ne_temp {x : DirectoryEntry} (h : x.IsCheckpoint)
    (checkpointId : Text) : x.filename ≠ tempFilename (checkpointFilenameForId checkpointId) := by
  intro htemp
  have hextension : extension x.filename = ascii ".tmp" := by
    rw [htemp, tempFilename]
    refine extension_append ?_ (by decide) (by decide)
    obtain ⟨s, hs⟩ := filename_suffix checkpointId
    rw [← hs]
    exact List.append_ne_nil_of_right_ne_nil s (by decide)
  unfold DirectoryEntry.IsCheckpoint at h
  rw [hextension, show decide (ascii ".tmp" = checkpointFileExtension) = false by decide,
    Bool.and_false] at h
  exact absurd h (by decide)

theorem mem_entries_trySave_saved {x : DirectoryEntry}
    (h : (FileCheckpointStore.trySave serialize directory checkpoint answers).point = .saved) :
    x ∈ (FileCheckpointStore.trySave serialize directory checkpoint answers).entries ↔
      x ∈ FileCheckpointStore.save serialize (directory.getD []) checkpoint := by
  have hholds := holds_trySave serialize directory checkpoint answers
  generalize FileCheckpointStore.trySave serialize directory checkpoint answers = state at h hholds
  obtain ⟨point, after⟩ := state
  change point = .saved at h
  subst h
  rw [mem_save]
  exact hholds x

theorem mem_entries_trySave_unsaved
    (h : (FileCheckpointStore.trySave serialize directory checkpoint answers).point ≠ .saved) :
    (∀ x, x.IsCheckpoint →
      (x ∈ (FileCheckpointStore.trySave serialize directory checkpoint answers).entries ↔
        x ∈ directory.getD [])) ∨
    (FileCheckpointStore.trySave serialize directory checkpoint answers).point.FellBack ∧
      ∀ x, x.IsCheckpoint →
        (x ∈ (FileCheckpointStore.trySave serialize directory checkpoint answers).entries ↔
          x ∈ directory.getD [] ∧ x.filename ≠ checkpointFilenameForId checkpoint.checkpointId) := by
  have hholds := holds_trySave serialize directory checkpoint answers
  generalize FileCheckpointStore.trySave serialize directory checkpoint answers = state at h hholds
  have hkept : Untouched (checkpointFilenameForId checkpoint.checkpointId) (directory.getD []) state →
      ∀ x, x.IsCheckpoint → (x ∈ state.entries ↔ x ∈ directory.getD []) :=
    fun h x hx => h x (hx.ne_temp _)
  have hlost : Removed (checkpointFilenameForId checkpoint.checkpointId) (directory.getD []) state →
      ∀ x, x.IsCheckpoint → (x ∈ state.entries ↔ x ∈ directory.getD [] ∧
        x.filename ≠ checkpointFilenameForId checkpoint.checkpointId) :=
    fun h x hx => h x (hx.ne_temp _)
  obtain ⟨point, after⟩ := state
  cases point with
  | createDirectories => exact .inl (hkept hholds)
  | openTemp => exact .inl (hkept hholds.2)
  | writeTemp written => exact .inl (hkept hholds.2)
  | rename => exact .inl (hkept hholds.1)
  | removeFinal => exact .inl (hkept hholds.1)
  | renameAgain => exact hholds.1.imp hkept fun h => ⟨trivial, hlost h⟩
  | removeTemp message => exact hholds.imp hkept fun h => ⟨trivial, hlost h⟩
  | saved => exact absurd rfl h
  | threw message => exact hholds.imp hkept fun h => ⟨h.2, hlost h.1⟩

/-- A save cut short anywhere leaves the checkpoint files as they were or as the whole save leaves
them; only after a failed rename can those of its own name be gone. -/
theorem file_save_is_atomic (serialize : EngineCheckpoint → Text)
    (directory : Option (List DirectoryEntry)) (checkpoint : EngineCheckpoint)
    (answers : List FileAnswer) :
    let state := FileCheckpointStore.trySave serialize directory checkpoint answers
    let original := directory.getD []
    (state.point = .saved → ∀ x, x.IsCheckpoint →
      (x ∈ state.entries ↔ x ∈ FileCheckpointStore.save serialize original checkpoint)) ∧
    (state.point ≠ .saved →
      (∀ x, x.IsCheckpoint → (x ∈ state.entries ↔ x ∈ original)) ∨
      state.point.FellBack ∧ ∀ x, x.IsCheckpoint → (x ∈ state.entries ↔
        x ∈ original ∧ x.filename ≠ checkpointFilenameForId checkpoint.checkpointId)) :=
  ⟨fun h _ _ => mem_entries_trySave_saved h, mem_entries_trySave_unsaved⟩

/-- Saves one after the other, each of them cut short anywhere, with those that reported success.
One that falls back is not at the offset of a success before it. -/
inductive FileCheckpointStore.Saves (serialize : EngineCheckpoint → Text)
    (start : Option (List DirectoryEntry)) :
    List EngineCheckpoint → List EngineCheckpoint → Option (List DirectoryEntry) → Prop
  | start : Saves serialize start [] [] start
  | save {attempted acknowledged : List EngineCheckpoint}
      {directory : Option (List DirectoryEntry)}
      (h : Saves serialize start attempted acknowledged directory) (checkpoint : EngineCheckpoint)
      (answers : List FileAnswer)
      (hspared : (trySave serialize directory checkpoint answers).point.FellBack →
        ∀ c ∈ acknowledged, c.sourcePosition.nextOffset ≠ checkpoint.sourcePosition.nextOffset) :
      Saves serialize start (checkpoint :: attempted)
        (if (trySave serialize directory checkpoint answers).point = .saved
          then checkpoint :: acknowledged else acknowledged)
        (trySave serialize directory checkpoint answers).directory

theorem FileCheckpointStore.Saves.retains {start : Option (List DirectoryEntry)}
    {attempted acknowledged : List EngineCheckpoint}
    (h : Saves serialize start attempted acknowledged directory) (hpartition : 0 ≤ partition)
    (hsource : ∀ c ∈ attempted, c.SavedFor topic partition)
    (hstart : ∀ entry ∈ start.getD [], ¬entry.IsCheckpoint) :
    acknowledged ⊆ attempted ∧ Retains DirectoryEntry.filename (checkpointEntry serialize)
      DirectoryEntry.IsCheckpoint attempted acknowledged (directory.getD []) := by
  induction h with
  | start => exact ⟨List.Subset.refl _, .nil hstart⟩
  | @save attempted acknowledged directory h checkpoint answers hspared ih =>
    obtain ⟨hsubset, hretains⟩ := ih fun c hc => hsource c (List.mem_cons_of_mem _ hc)
    by_cases hpoint : (trySave serialize directory checkpoint answers).point = .saved
    · rw [if_pos hpoint]
      refine ⟨List.cons_subset_cons _ hsubset, ?_⟩
      refine hretains.saved (isCheckpoint_checkpointEntry serialize checkpoint) fun x hx => ?_
      exact (mem_entries_trySave_saved hpoint).trans
        (fileStore_overwrites serialize _ checkpoint x hx)
    · rw [if_neg hpoint]
      refine ⟨List.subset_cons_of_subset _ hsubset, ?_⟩
      rcases mem_entries_trySave_unsaved hpoint with hkept | ⟨hback, hlost⟩
      · exact hretains.kept hkept
      · refine hretains.lost (fun d hd hname => ?_) hlost
        -- a name of a source tells its offset
        have hcompare := (hsource d (List.mem_cons_of_mem _ (hsubset hd))).compare_names hpartition
          (hsource checkpoint List.mem_cons_self) []
        have heq := Std.LawfulEqOrd.compare_eq_iff_eq.1
          (hcompare.symm.trans (Std.LawfulEqOrd.compare_eq_iff_eq.2 hname))
        exact hspared hback d hd heq

theorem latestCheckpointFile_some {directory : List DirectoryEntry} {file : DirectoryEntry}
    (h : latestCheckpointFile (some directory) = some file) :
    (file ∈ directory ∧ file.IsCheckpoint) ∧ ∀ x ∈ directory, x.IsCheckpoint →
      (compare x.filename file.filename).isLE = true := by
  have hlatest := rel_of_getLast?_insertionSort
    (r := fun a b : DirectoryEntry => (compare a.filename b.filename).isLE = true) h
  refine ⟨List.mem_filter.1 hlatest.1, fun x hx hlisted => ?_⟩
  exact hlatest.2 x (List.mem_filter.2 ⟨hx, hlisted⟩)

theorem exists_latestCheckpointFile {directory : List DirectoryEntry} {x : DirectoryEntry}
    (hx : x ∈ directory) (hlisted : x.IsCheckpoint) :
    ∃ file, latestCheckpointFile (some directory) = some file := by
  refine Option.isSome_iff_exists.1 (List.getLast?_isSome.2 fun hnil => ?_)
  have hcandidate : x ∈ directory.filter fun entry =>
      entry.isRegularFile && extension entry.filename = checkpointFileExtension :=
    List.mem_filter.2 ⟨hx, hlisted⟩
  have hmem := (List.mem_insertionSort fun a b : DirectoryEntry =>
    (compare a.filename b.filename).isLE = true).2 hcandidate
  rw [hnil] at hmem
  exact List.not_mem_nil hmem

/-- However the saves of a source are cut short, what is loaded afterwards is the whole text of one of
them, and at no smaller offset than any save that reported success. -/
theorem acknowledged_checkpoints_survive (read : Text → Option EngineCheckpoint)
    {start : Option (List DirectoryEntry)} {attempted acknowledged : List EngineCheckpoint}
    (h : FileCheckpointStore.Saves serialize start attempted acknowledged directory)
    (hpartition : 0 ≤ partition) (hsource : ∀ c ∈ attempted, c.SavedFor topic partition)
    (hstart : ∀ entry ∈ start.getD [], ¬entry.IsCheckpoint) :
    (acknowledged ≠ [] → ∃ c ∈ attempted, loadLatest read directory = read (serialize c) ∧
      ∀ d ∈ acknowledged, d.sourcePosition.nextOffset ≤ c.sourcePosition.nextOffset) ∧
    ∀ loaded, loadLatest read directory = some loaded →
      ∃ c ∈ attempted, read (serialize c) = some loaded := by
  obtain ⟨hsubset, hretains⟩ := h.retains hpartition hsource hstart
  cases directory with
  | none =>
    refine ⟨fun hne => ?_, fun loaded hloaded => by cases hloaded⟩
    obtain ⟨d, hd⟩ := List.exists_mem_of_ne_nil _ hne
    obtain ⟨x, hx, -⟩ := hretains.present d hd
    exact absurd hx List.not_mem_nil
  | some directory =>
    have hfile : ∀ file, latestCheckpointFile (some directory) = some file →
        ∃ c ∈ attempted, loadLatest read (some directory) = read (serialize c) ∧
          ∀ d ∈ acknowledged, d.sourcePosition.nextOffset ≤ c.sourcePosition.nextOffset := by
      intro file hlatest
      obtain ⟨⟨hmem, hlisted⟩, habove⟩ := latestCheckpointFile_some hlatest
      obtain ⟨c, hc, rfl⟩ := hretains.whole file hmem hlisted
      refine ⟨c, hc, ?_, fun d hd => ?_⟩
      · unfold loadLatest
        rw [hlatest]
        rfl
      · obtain ⟨x, hx, hxlisted, hname⟩ := hretains.present d hd
        have hle := habove x hx hxlisted
        rw [hname] at hle
        have hcompare := (hsource d (hsubset hd)).compare_names hpartition (hsource c hc) []
        rw [List.nil_append, List.nil_append] at hcompare
        change (compare (checkpointFilenameForId d.checkpointId)
          (checkpointFilenameForId c.checkpointId)).isLE = true at hle
        rwa [hcompare, Int.isLE_compare] at hle
    constructor
    · intro hne
      obtain ⟨d, hd⟩ := List.exists_mem_of_ne_nil _ hne
      obtain ⟨x, hx, hxlisted, -⟩ := hretains.present d hd
      obtain ⟨file, hlatest⟩ := exists_latestCheckpointFile hx hxlisted
      exact hfile file hlatest
    · intro loaded hloaded
      cases hlatest : latestCheckpointFile (some directory) with
      | none =>
        unfold loadLatest at hloaded
        rw [hlatest] at hloaded
        cases hloaded
      | some file =>
        obtain ⟨c, hc, hread, -⟩ := hfile file hlatest
        exact ⟨c, hc, hread.symm.trans hloaded⟩

/-- Offset 9 was saved, and the process died while it wrote the file of offset 100. -/
theorem acknowledged_checkpoints_survive_sample :
    ∃ directory loaded, FileCheckpointStore.Saves EngineCheckpoint.checkpointId none
        [sampleCheckpointAt 100, sampleCheckpointAt 9] [sampleCheckpointAt 9] directory ∧
      loadLatest (fun content => some { sampleCheckpoint with checkpointId := content }) directory =
        some loaded := by
  have hsource : ∀ c ∈ [sampleCheckpointAt 100, sampleCheckpointAt 9],
      c.SavedFor (ascii "engine-in") 0 := by
    rw [List.forall_mem_cons, List.forall_mem_singleton]
    exact ⟨savedFor_sampleCheckpointAt (by decide) (by decide),
      savedFor_sampleCheckpointAt (by decide) (by decide)⟩
  have hempty : FileCheckpointStore.Saves EngineCheckpoint.checkpointId none [] [] none := .start
  have hrun := (hempty.save (sampleCheckpointAt 9) [.done, .done, .done, .done]
    fun _ _ h => absurd h List.not_mem_nil).save (sampleCheckpointAt 100)
      [.done, .done, .wrote 3] False.elim
  obtain ⟨c, -, hloaded, -⟩ := (acknowledged_checkpoints_survive
    (fun content => some { sampleCheckpoint with checkpointId := content }) hrun le_rfl hsource
    fun _ h => absurd h List.not_mem_nil).1 (List.cons_ne_nil _ _)
  exact ⟨_, _, hrun, hloaded⟩

end Saves
end PerpexEngine
