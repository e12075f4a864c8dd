import PerpexEngine.Lib.Codes
import PerpexEngine.Lib.NamedStore
import PerpexEngine.Recovery.Checkpoint

/-! The names of checkpoints: of their files and objects, and of the ids that put them in order. -/
namespace PerpexEngine

section Filenames

def isSafeFilenameChar (value : UInt8) : Bool :=
  (97 ≤ value && value ≤ 122) || (65 ≤ value && value ≤ 90) || (48 ≤ value && value ≤ 57) ||
    value = 45 || value = 95 || value = 46

/-- `hex_digit`. -/
def filenameHexDigit (value : ℕ) : UInt8 :=
  (if value < 10 then 48 + value else 65 + value - 10).toUInt8

def filenameChar (value : UInt8) : Text :=
  if isSafeFilenameChar value then [value]
  else [37, filenameHexDigit (value.toNat / 16), filenameHexDigit (value.toNat % 16)]

/-- `filename_for_checkpoint_id`: an empty id gets a name of its own. -/
def checkpointFilenameForId (checkpointId : Text) : Text :=
  let filename := checkpointId.flatMap filenameChar
  (if filename = [] then ascii "checkpoint" else filename) ++ checkpointFileExtension

theorem filenameHexDigit_inj : ∀ m < 16, ∀ n < 16,
    filenameHexDigit m = filenameHexDigit n → m = n := by decide

theorem isSafe_filenameHexDigit : ∀ n < 16, isSafeFilenameChar (filenameHexDigit n) = true := by
  decide

theorem filenameChar_prefixFree : PrefixFree filenameChar := by
  constructor
  · intro a
    unfold filenameChar
    split <;> exact List.cons_ne_nil _ _
  · intro a b h
    unfold filenameChar at h
    split at h <;> split at h
    · simpa using h
    · rename_i hsafe _
      have heq : a = 37 := (List.cons_prefix_cons.1 h).1
      rw [heq] at hsafe
      exact absurd hsafe (by decide)
    · exact absurd h.length_le (by simp)
    · simp only [List.cons_prefix_cons, true_and, and_true, List.nil_prefix] at h
      have ha := a.toNat_lt
      have hb := b.toNat_lt
      have hhigh := filenameHexDigit_inj _ (by omega) _ (by omega) h.1
      have hlow := filenameHexDigit_inj _ (by omega) _ (by omega) h.2
      exact UInt8.toNat_inj.1 (by omega)

/-- A text of safe characters is its own name. -/
theorem flatMap_filenameChar {t : Text} (h : ∀ b ∈ t, isSafeFilenameChar b = true) :
    t.flatMap filenameChar = t := by
  induction t with
  | nil => rfl
  | cons b t ih =>
    rw [List.flatMap_cons, filenameChar, if_pos (h b List.mem_cons_self),
      ih fun c hc => h c (List.mem_cons_of_mem _ hc)]
    rfl

theorem flatMap_filenameChar_eq_nil {t : Text} : t.flatMap filenameChar = [] ↔ t = [] := by
  constructor
  · intro h
    exact filenameChar_prefixFree.flatMap_injective (h.trans List.flatMap_nil.symm)
  · rintro rfl
    rfl

theorem mem_filenameChar {b c : UInt8} (h : b ∈ filenameChar c) :
    isSafeFilenameChar b = true ∨ b = 37 := by
  have hc := c.toNat_lt
  unfold filenameChar at h
  split at h
  · rename_i hsafe
    rw [List.mem_singleton.1 h]
    exact .inl hsafe
  · rcases List.mem_cons.1 h with h | h
    · exact .inr h
    · simp only [List.mem_cons, List.not_mem_nil, or_false] at h
      rcases h with rfl | rfl <;> exact .inl (isSafe_filenameHexDigit _ (by omega))

theorem checkpointFilenameForId_eq (checkpointId : Text) :
    checkpointFilenameForId checkpointId =
      (if checkpointId = [] then ascii "checkpoint" else checkpointId).flatMap filenameChar ++
        checkpointFileExtension := by
  have hfallback : (ascii "checkpoint").flatMap filenameChar = ascii "checkpoint" :=
    flatMap_filenameChar (by decide +kernel)
  simp only [checkpointFilenameForId]
  by_cases h : checkpointId = []
  · rw [if_pos h, if_pos (flatMap_filenameChar_eq_nil.2 h), hfallback]
  · rw [if_neg h, if_neg (mt flatMap_filenameChar_eq_nil.1 h)]

theorem filename_suffix (checkpointId : Text) :
    checkpointFileExtension <:+ checkpointFilenameForId checkpointId := ⟨_, rfl⟩

/-- No name is the name of a temporary file. -/
theorem filename_ne_temporary (a : Text) (t : Text) :
    checkpointFilenameForId a ≠ t ++ ascii ".tmp" := by
  obtain ⟨s, hs⟩ := filename_suffix a
  have hname : (s ++ checkpointFileExtension).getLast? = some 116 := by
    rw [List.getLast?_append]
    rfl
  have htemp : (t ++ ascii ".tmp").getLast? = some 112 := by
    rw [List.getLast?_append]
    rfl
  rw [← hs]
  intro heq
  rw [heq, htemp] at hname
  exact absurd hname (by decide)

end Filenames

section Stores
variable {directory : List DirectoryEntry} {checkpoint : EngineCheckpoint}

def writeFile (directory : List DirectoryEntry) (filename content : Text) : List DirectoryEntry :=
  (directory.filter fun entry => entry.filename ≠ filename) ++ [⟨filename, true, some content⟩]

def renameFile (directory : List DirectoryEntry) (source target : Text) : List DirectoryEntry :=
  (directory.filter fun entry => entry.filename ≠ target).map fun entry =>
    if entry.filename = source then { entry with filename := target } else entry

/-- `FileCheckpointStore::save` where it returns. -/
def FileCheckpointStore.save (serialize : EngineCheckpoint → Text)
    (directory : List DirectoryEntry) (checkpoint : EngineCheckpoint) : List DirectoryEntry :=
  let filename := checkpointFilenameForId checkpoint.checkpointId
  let tempPath := filename ++ ascii ".tmp"
  renameFile (writeFile directory tempPath (serialize checkpoint)) tempPath filename

def checkpointKeyForId (keyPrefix checkpointId : Text) : Text :=
  keyPrefix ++ checkpointFilenameForId checkpointId

/-- The object service, where its calls succeed: a put of an object, the keys with a prefix, and the
object of a key. -/
structure ObjectService (σ : Type) where
  put : Text → Text → σ → σ
  list : Text → σ → List Text
  get : Text → σ → Option Text

/-- What is documented of the service: a get answers the last put, and the keys listed are those with
an object. -/
structure ObjectService.Lawful {σ : Type} (service : ObjectService σ) : Prop where
  getsPuts : GetsPuts service.put service.get
  mem_list : ∀ keyPrefix key bucket, key ∈ service.list keyPrefix bucket ↔
    keyPrefix <+: key ∧ (service.get key bucket).isSome = true

section ObjectStore
variable {σ : Type} (service : ObjectService σ)

/-- `S3CheckpointStore::save` where it returns. -/
def S3CheckpointStore.save (serialize : EngineCheckpoint → Text) (keyPrefix : Text) (bucket : σ)
    (checkpoint : EngineCheckpoint) : σ :=
  service.put (checkpointKeyForId keyPrefix checkpoint.checkpointId) (serialize checkpoint) bucket

/-- `list_checkpoint_keys`, of what the service lists over all pages. -/
def listCheckpointKeys (keyPrefix : Text) (bucket : σ) : List Text :=
  ((service.list keyPrefix bucket).filter fun key =>
      keyPrefix.isPrefixOf key && checkpointFileExtension.isSuffixOf key).insertionSort
    fun left right => (compare left right).isLE

/-- `S3CheckpointStore::load_latest` where it returns. -/
def S3CheckpointStore.loadLatest (read : Text → Option EngineCheckpoint) (keyPrefix : Text)
    (bucket : σ) : Option EngineCheckpoint := do
  let key ← (listCheckpointKeys service keyPrefix bucket).getLast?
  let body ← service.get key bucket
  read body

end ObjectStore

/-- The file that a save leaves behind. -/
def checkpointEntry (serialize : EngineCheckpoint → Text) (checkpoint : EngineCheckpoint) :
    DirectoryEntry :=
  ⟨checkpointFilenameForId checkpoint.checkpointId, true, some (serialize checkpoint)⟩

theorem mem_save (serialize : EngineCheckpoint → Text) {x : DirectoryEntry} :
    x ∈ FileCheckpointStore.save serialize directory checkpoint ↔
      x = checkpointEntry serialize checkpoint ∨
        x ∈ directory ∧ x.filename ≠ checkpointFilenameForId checkpoint.checkpointId ∧
          x.filename ≠ checkpointFilenameForId checkpoint.checkpointId ++ ascii ".tmp" := by
  have hne := filename_ne_temporary checkpoint.checkpointId
    (checkpointFilenameForId checkpoint.checkpointId)
  simp only [FileCheckpointStore.save, renameFile, writeFile, checkpointEntry, List.mem_map,
    List.mem_filter, List.mem_append, List.mem_singleton, decide_eq_true_eq, ne_eq]
  constructor
  · rintro ⟨entry, ⟨⟨hentry, htemp⟩ | rfl, hfinal⟩, rfl⟩
    · rw [if_neg htemp]
      exact .inr ⟨hentry, hfinal, htemp⟩
    · exact .inl (if_pos rfl)
  · rintro (rfl | ⟨hx, hfinal, htemp⟩)
    · exact ⟨_, ⟨.inr rfl, fun h => hne h.symm⟩, if_pos rfl⟩
    · exact ⟨x, ⟨.inl ⟨hx, htemp⟩, hfinal⟩, if_neg htemp⟩

/-- Two ids share a name, or the key of an object, only if they are the same or one of them is empty
and the other one is `checkpoint`; a name has safe characters and percent signs only, and the extension
at its end. A save leaves the files and objects of other names as they are. -/
theorem checkpoint_filename_iff (a b : Text) :
    (checkpointFilenameForId a = checkpointFilenameForId b ↔
      a = b ∨ a = [] ∧ b = ascii "checkpoint" ∨ a = ascii "checkpoint" ∧ b = []) ∧
    (∀ keyPrefix, checkpointKeyForId keyPrefix a = checkpointKeyForId keyPrefix b ↔
      checkpointFilenameForId a = checkpointFilenameForId b) ∧
    (∀ value ∈ checkpointFilenameForId a, isSafeFilenameChar value = true ∨ value = 37) ∧
    checkpointFileExtension <:+ checkpointFilenameForId a ∧
    (∀ serialize directory checkpoint, checkpoint.checkpointId = b →
      checkpointFilenameForId a ≠ checkpointFilenameForId b →
      ∀ entry ∈ directory, entry.filename = checkpointFilenameForId a →
        entry ∈ FileCheckpointStore.save serialize directory checkpoint) ∧
    ∀ (σ : Type) (service : ObjectService σ), service.Lawful →
      ∀ serialize keyPrefix bucket checkpoint, checkpoint.checkpointId = b →
        checkpointFilenameForId a ≠ checkpointFilenameForId b →
        service.get (checkpointKeyForId keyPrefix a)
            (S3CheckpointStore.save service serialize keyPrefix bucket checkpoint) =
          service.get (checkpointKeyForId keyPrefix a) bucket := by
  have hkeys : ∀ keyPrefix, checkpointKeyForId keyPrefix a = checkpointKeyForId keyPrefix b ↔
      checkpointFilenameForId a = checkpointFilenameForId b :=
    fun keyPrefix => List.append_right_inj keyPrefix
  refine ⟨?_, hkeys, fun value hvalue => ?_, filename_suffix a, ?_, ?_⟩
  · have hne : ascii "checkpoint" ≠ [] := by decide
    rw [checkpointFilenameForId_eq, checkpointFilenameForId_eq, List.append_cancel_right_eq,
      filenameChar_prefixFree.flatMap_injective.eq_iff]
    by_cases ha : a = [] <;> by_cases hb : b = [] <;> simp [ha, hb, hne, eq_comm]
  · rw [checkpointFilenameForId_eq] at hvalue
    rcases List.mem_append.1 hvalue with hvalue | hvalue
    · obtain ⟨c, -, hc⟩ := List.mem_flatMap.1 hvalue
      exact mem_filenameChar hc
    · exact (show ∀ b ∈ checkpointFileExtension, isSafeFilenameChar b = true ∨ b = 37 by
        decide +kernel)
        value hvalue
  · rintro serialize directory checkpoint rfl hne entry hentry hname
    rw [mem_save, hname]
    exact .inr ⟨hentry, hne, filename_ne_temporary _ _⟩
  · rintro σ service hlawful serialize keyPrefix bucket checkpoint rfl hne
    unfold S3CheckpointStore.save
    rw [hlawful.getsPuts, if_neg (mt (hkeys keyPrefix).1 hne)]

/-- The empty id takes the name of the id that spells it. -/
theorem checkpoint_filename_shared :
    checkpointFilenameForId [] = checkpointFilenameForId (ascii "checkpoint") ∧
      ([] : Text) ≠ ascii "checkpoint" := by
  decide

end Stores

end PerpexEngine
