import Mathlib.Data.Set.Finite.Lemmas
import PerpexEngine.Recovery.CheckpointNames
import PerpexEngine.Recovery.Restores

/-! The latest checkpoint of a source: the order of the names is the order of the offsets. -/
namespace PerpexEngine

section Ids
variable {topic : Text} {partition m n : ℤ}

def safeCheckpointTopic (topic : Text) : Text :=
  let result := topic.map fun ch =>
    let safe := (97 ≤ ch && ch ≤ 122) || (65 ≤ ch && ch ≤ 90) || (48 ≤ ch && ch ≤ 57) ||
      ch = 46 || ch = 45 || ch = 95
    if safe then ch else 95
  if result = [] then ascii "topic" else result

/-- `std::setw` with `std::setfill('0')`. -/
def padded (width : ℕ) (value : ℤ) : Text :=
  List.replicate (width - (text value).length) 48 ++ text value

/-- `checkpoint_id_for`. -/
def checkpointIdFor (source : CheckpointSourcePosition) : Text :=
  ascii "source-" ++ safeCheckpointTopic source.topic ++ ascii "-p" ++ padded 10 source.partition ++
    ascii "-o" ++ padded 20 source.nextOffset

theorem safe_of_isDigit {b : UInt8} (h : IsDigit b) : isSafeFilenameChar b = true := by
  have hlow : (48 : UInt8) ≤ b := UInt8.le_iff_toNat_le.2 h.1
  have hhigh : b ≤ 57 := UInt8.le_iff_toNat_le.2 h.2
  simp [isSafeFilenameChar, hlow, hhigh]

theorem isDigit_of_mem_padded {width : ℕ} (hn : 0 ≤ n) {b : UInt8} (h : b ∈ padded width n) :
    IsDigit b := by
  obtain ⟨k, rfl⟩ := Int.eq_ofNat_of_zero_le hn
  rcases List.mem_append.1 h with h | h
  · rw [List.eq_of_mem_replicate h]
    decide
  · exact isDigit_of_mem_decimal h

theorem length_padded {width : ℕ} (hwidth : 0 < width) (hn : 0 ≤ n) (hlt : n < 10 ^ width) :
    (padded width n).length = width := by
  obtain ⟨k, rfl⟩ := Int.eq_ofNat_of_zero_le hn
  have hle : (text k).length ≤ width := (length_decimal_le hwidth).2 (by exact_mod_cast hlt)
  rw [padded, List.length_append, List.length_replicate]
  omega

theorem numeral_padded {width : ℕ} (hn : 0 ≤ n) : (numeral (padded width n) : ℤ) = n := by
  obtain ⟨k, rfl⟩ := Int.eq_ofNat_of_zero_le hn
  rw [padded, numeral_append, numeral_zeros, Nat.zero_mul, Nat.zero_add, text_natCast,
    numeral_decimal]

theorem safe_safeCheckpointTopic {b : UInt8} (h : b ∈ safeCheckpointTopic topic) :
    isSafeFilenameChar b = true := by
  simp only [safeCheckpointTopic] at h
  split at h
  · exact (show ∀ b ∈ ascii "topic", isSafeFilenameChar b = true by decide +kernel) b h
  · obtain ⟨ch, -, rfl⟩ := List.mem_map.1 h
    split
    · rename_i hsafe
      unfold isSafeFilenameChar
      simp only [Bool.or_eq_true] at hsafe ⊢
      tauto
    · decide

/-- What the names of one source have in common. -/
def namePrefix (topic : Text) (partition : ℤ) : Text :=
  ascii "source-" ++ safeCheckpointTopic topic ++ ascii "-p" ++ padded 10 partition ++ ascii "-o"

theorem filename_checkpointIdFor (hpartition : 0 ≤ partition) (hn : 0 ≤ n) :
    checkpointFilenameForId (checkpointIdFor ⟨topic, partition, n⟩) =
      namePrefix topic partition ++ (padded 20 n ++ checkpointFileExtension) := by
  have hsafe : ∀ b ∈ checkpointIdFor ⟨topic, partition, n⟩, isSafeFilenameChar b = true := by
    intro b hb
    simp only [checkpointIdFor, List.mem_append] at hb
    rcases hb with ((((hb | hb) | hb) | hb) | hb) | hb
    · exact (show ∀ b ∈ ascii "source-", isSafeFilenameChar b = true by decide +kernel) b hb
    · exact safe_safeCheckpointTopic hb
    · exact (show ∀ b ∈ ascii "-p", isSafeFilenameChar b = true by decide +kernel) b hb
    · exact safe_of_isDigit (isDigit_of_mem_padded hpartition hb)
    · exact (show ∀ b ∈ ascii "-o", isSafeFilenameChar b = true by decide +kernel) b hb
    · exact safe_of_isDigit (isDigit_of_mem_padded hn hb)
  have hne : checkpointIdFor ⟨topic, partition, n⟩ ≠ [] := by
    simp [checkpointIdFor, show ascii "source-" ≠ [] by decide]
  rw [checkpointFilenameForId_eq, if_neg hne, flatMap_filenameChar hsafe]
  simp only [checkpointIdFor, namePrefix, List.append_assoc]

/-- The order of the names of a source is the order of the offsets, whatever stands before them. -/
theorem compare_filenames (pre : Text) (hpartition : 0 ≤ partition) (hm : 0 ≤ m) (hm' : m < 2 ^ 63)
    (hn : 0 ≤ n) (hn' : n < 2 ^ 63) :
    compare (pre ++ checkpointFilenameForId (checkpointIdFor ⟨topic, partition, m⟩))
      (pre ++ checkpointFilenameForId (checkpointIdFor ⟨topic, partition, n⟩)) = compare m n := by
  have hlength : (padded 20 m).length = (padded 20 n).length := by
    rw [length_padded (by decide) hm (by omega), length_padded (by decide) hn (by omega)]
  rw [filename_checkpointIdFor hpartition hm, filename_checkpointIdFor hpartition hn,
    compare_append_left, compare_append_left, compare_append_right hlength,
    compare_digits hlength (fun _ => isDigit_of_mem_padded hm) fun _ => isDigit_of_mem_padded hn]
  have hm := @numeral_padded m 20 hm
  have hn := @numeral_padded n 20 hn
  rcases lt_trichotomy m n with hlt | rfl | hgt
  · rw [compare_lt_iff_lt.2 hlt, compare_lt_iff_lt.2 (by omega)]
  · rw [Std.compare_self, Std.compare_self]
  · rw [compare_gt_iff_gt.2 hgt, compare_gt_iff_gt.2 (by omega)]

end Ids

section Latest
variable {topic : Text} {partition : ℤ} {saves : List EngineCheckpoint}

/-- A checkpoint of a source, under the id that is built from its position. -/
structure EngineCheckpoint.SavedFor (checkpoint : EngineCheckpoint) (topic : Text)
    (partition : ℤ) : Prop where
  topic : checkpoint.sourcePosition.topic = topic
  partition : checkpoint.sourcePosition.partition = partition
  id : checkpoint.checkpointId = checkpointIdFor checkpoint.sourcePosition
  nonneg : 0 ≤ checkpoint.sourcePosition.nextOffset
  bounded : checkpoint.sourcePosition.nextOffset < 2 ^ 63

/-- What `latest_checkpoint_path` takes for a checkpoint. -/
def DirectoryEntry.IsCheckpoint (entry : DirectoryEntry) : Prop :=
  (entry.isRegularFile && extension entry.filename = checkpointFileExtension) = true

/-- What `list_checkpoint_keys` takes for a checkpoint. -/
def IsCheckpointKey (keyPrefix key : Text) : Prop :=
  (keyPrefix.isPrefixOf key && checkpointFileExtension.isSuffixOf key) = true

instance : DecidablePred DirectoryEntry.IsCheckpoint := fun _ => inferInstanceAs (Decidable (_ = _))

instance (keyPrefix : Text) : DecidablePred (IsCheckpointKey keyPrefix) :=
  fun _ => inferInstanceAs (Decidable (_ = _))

/-- The extension is what the last dot starts, unless the dot is the first byte. -/
theorem extension_append {t s : Text} (ht : t ≠ []) (hs : 46 ∉ s) (hne : s ≠ []) :
    extension (t ++ 46 :: s) = 46 :: s := by
  have hsuffix : ((t ++ 46 :: s).reverse.takeWhile (· ≠ 46)).reverse = s := by
    have hall : ∀ b ∈ s.reverse, decide (b ≠ 46) = true := fun b hb =>
      decide_eq_true fun heq => hs (heq ▸ List.mem_reverse.1 hb)
    rw [List.reverse_append, List.reverse_cons, List.append_assoc, List.takeWhile_append_of_pos hall]
    simp
  have hlength : 0 < t.length := List.length_pos_iff.2 ht
  have hlength' : 0 < s.length := List.length_pos_iff.2 hne
  have hlong : ¬((t ++ 46 :: s).length ≤ s.length + 1 ∨ t ++ 46 :: s = ascii "..") := by
    rintro (hle | heq)
    · rw [List.length_append, List.length_cons] at hle
      omega
    · have hdots := congrArg List.length heq
      rw [List.length_append, List.length_cons, show (ascii "..").length = 2 from rfl] at hdots
      omega
  simp only [extension, hsuffix]
  rw [if_neg hlong]

theorem EngineCheckpoint.SavedFor.filename {checkpoint : EngineCheckpoint}
    (h : checkpoint.SavedFor topic partition) :
    checkpointFilenameForId checkpoint.checkpointId =
      checkpointFilenameForId (checkpointIdFor
        ⟨topic, partition, checkpoint.sourcePosition.nextOffset⟩) := by
  rw [h.id, ← h.topic, ← h.partition]

theorem EngineCheckpoint.SavedFor.compare_names {c d : EngineCheckpoint} (hpartition : 0 ≤ partition)
    (hc : c.SavedFor topic partition) (hd : d.SavedFor topic partition) (pre : Text) :
    compare (pre ++ checkpointFilenameForId c.checkpointId)
      (pre ++ checkpointFilenameForId d.checkpointId) =
        compare c.sourcePosition.nextOffset d.sourcePosition.nextOffset := by
  rw [hc.filename, hd.filename]
  exact compare_filenames pre hpartition hc.nonneg hc.bounded hd.nonneg hd.bounded

theorem extension_checkpointFilename (checkpointId : Text) :
    extension (checkpointFilenameForId checkpointId) = checkpointFileExtension := by
  rw [checkpointFilenameForId_eq]
  refine extension_append ?_ (by decide) (by decide)
  rw [ne_eq, flatMap_filenameChar_eq_nil]
  split
  · decide
  · assumption

theorem isCheckpoint_checkpointEntry (serialize : EngineCheckpoint → Text)
    (checkpoint : EngineCheckpoint) : (checkpointEntry serialize checkpoint).IsCheckpoint := by
  have hextension := extension_checkpointFilename checkpoint.checkpointId
  exact Bool.and_eq_true_iff.2 ⟨rfl, decide_eq_true hextension⟩

theorem fileStore_overwrites (serialize : EngineCheckpoint → Text) :
    Overwrites DirectoryEntry.filename (checkpointEntry serialize) DirectoryEntry.IsCheckpoint
      (FileCheckpointStore.save serialize) := by
  intro directory checkpoint x hx
  rw [mem_save]
  refine or_congr_right ⟨fun h => ⟨h.1, h.2.1⟩, fun h => ⟨h.1, h.2, fun htemp => ?_⟩⟩
  -- a temporary file is not taken for a checkpoint
  obtain ⟨s, hs⟩ := filename_suffix checkpoint.checkpointId
  have htmp : extension x.filename = ascii ".tmp" := by
    rw [htemp, ← hs]
    refine extension_append ?_ (by decide) (by decide)
    exact List.append_ne_nil_of_right_ne_nil s (by decide)
  unfold DirectoryEntry.IsCheckpoint at hx
  rw [htmp, show decide (ascii ".tmp" = checkpointFileExtension) = false by decide,
    Bool.and_false] at hx
  exact absurd hx (by decide)

theorem isCheckpointKey_checkpointKey (keyPrefix checkpointId : Text) :
    IsCheckpointKey keyPrefix (checkpointKeyForId keyPrefix checkpointId) :=
  Bool.and_eq_true_iff.2 ⟨List.isPrefixOf_iff_prefix.2 (List.prefix_append _ _),
    List.isSuffixOf_iff_suffix.2 ((filename_suffix _).trans (List.suffix_append _ _))⟩

instance : Std.Total fun a b : Text => (compare a b).isLE = true where
  total a b := by
    cases h : compare a b with
    | lt => exact .inl rfl
    | eq => exact .inl rfl
    | gt =>
      rw [Std.OrientedCmp.lt_of_gt h]
      exact .inr rfl

instance : IsTrans Text fun a b => (compare a b).isLE = true where
  trans _ _ _ := Std.TransCmp.isLE_trans

instance {α : Type} (name : α → Text) :
    Std.Total fun a b : α => (compare (name a) (name b)).isLE = true where
  total a b := Std.Total.total (r := fun s t : Text => (compare s t).isLE = true) (name a) (name b)

instance {α : Type} (name : α → Text) :
    IsTrans α fun a b => (compare (name a) (name b)).isLE = true where
  trans _ _ _ := Std.TransCmp.isLE_trans

section Greatest
variable {top : EngineCheckpoint} {serialize : EngineCheckpoint → Text}
  (hpartition : 0 ≤ partition) (hsaves : ∀ c ∈ saves, c.SavedFor topic partition)
  (hmax : ∀ c ∈ saves, c.sourcePosition.nextOffset ≤ top.sourcePosition.nextOffset)
  (htop : lastSaved (fun c : EngineCheckpoint => c.sourcePosition.nextOffset) saves
    top.sourcePosition.nextOffset = some top)
include hpartition hsaves

theorem filename_eq_iff (pre : Text) {c d : EngineCheckpoint} (hc : c ∈ saves) (hd : d ∈ saves) :
    pre ++ checkpointFilenameForId c.checkpointId = pre ++ checkpointFilenameForId d.checkpointId ↔
      c.sourcePosition.nextOffset = d.sourcePosition.nextOffset := by
  have hcompare := (hsaves c hc).compare_names hpartition (hsaves d hd) pre
  exact Std.LawfulEqOrd.compare_eq_iff_eq.symm.trans
    ((Eq.congr hcompare rfl).trans Std.LawfulEqOrd.compare_eq_iff_eq)

theorem filename_isLE_iff (pre : Text) {c d : EngineCheckpoint} (hc : c ∈ saves) (hd : d ∈ saves) :
    (compare (pre ++ checkpointFilenameForId c.checkpointId)
      (pre ++ checkpointFilenameForId d.checkpointId)).isLE = true ↔
      c.sourcePosition.nextOffset ≤ d.sourcePosition.nextOffset := by
  rw [(hsaves c hc).compare_names hpartition (hsaves d hd) pre, Int.isLE_compare]

include hmax htop

theorem latestCheckpointFile_eq {directory : List DirectoryEntry}
    (hdirectory : ∀ entry ∈ directory, ¬entry.IsCheckpoint) :
    latestCheckpointFile (some (saves.foldl (FileCheckpointStore.save serialize) directory)) =
      some (checkpointEntry serialize top) := by
  have hmem := (mem_of_lastSaved htop).1
  obtain ⟨hin, habove⟩ := (fileStore_overwrites serialize).greatest hdirectory
    (r := fun a b => (compare a.filename b.filename).isLE = true)
    (fun c _ => isCheckpoint_checkpointEntry serialize c)
    (fun c hc d hd => (filename_eq_iff hpartition hsaves [] hc hd).2)
    (fun c hc d hd => (filename_isLE_iff hpartition hsaves [] hc hd).1) hmax
    ((lastSaved_congr fun c hc => filename_eq_iff hpartition hsaves [] hc hmem).trans htop)
  refine getLast?_insertionSort (List.mem_filter.2 ⟨hin, ?_⟩) fun x hx hle => ?_
  · exact isCheckpoint_checkpointEntry serialize top
  · obtain ⟨hx, hlisted⟩ := List.mem_filter.1 hx
    exact habove x hx hlisted hle

theorem latestObject_eq {σ : Type} {service : ObjectService σ} (hlawful : service.Lawful)
    {keyPrefix : Text} {bucket : σ}
    (hbucket : ∀ key, IsCheckpointKey keyPrefix key → service.get key bucket = none)
    (read : Text → Option EngineCheckpoint) :
    S3CheckpointStore.loadLatest service read keyPrefix
      (saves.foldl (S3CheckpointStore.save service serialize keyPrefix) bucket) =
        read (serialize top) := by
  let keyOf (c : EngineCheckpoint) : Text := checkpointKeyForId keyPrefix c.checkpointId
  have hmem := (mem_of_lastSaved htop).1
  have hlast : lastSaved keyOf saves (keyOf top) = some top :=
    (lastSaved_congr fun c hc => filename_eq_iff hpartition hsaves keyPrefix hc hmem).trans htop
  -- of the keys of checkpoints the bucket has those of the saves
  have hget : ∀ key, IsCheckpointKey keyPrefix key → service.get key
      (saves.foldl (S3CheckpointStore.save service serialize keyPrefix) bucket) =
        (lastSaved keyOf saves key).map serialize := by
    intro key hkey
    have hfold := hlawful.getsPuts.get_foldl keyOf serialize saves bucket key
    rw [hbucket key hkey, Option.or_none] at hfold
    exact hfold
  have hbody := hget (keyOf top) (isCheckpointKey_checkpointKey _ _)
  rw [hlast] at hbody
  generalize saves.foldl (S3CheckpointStore.save service serialize keyPrefix) bucket = left
    at hget hbody ⊢
  have hkey : (listCheckpointKeys service keyPrefix left).getLast? = some (keyOf top) := by
    refine getLast?_insertionSort (List.mem_filter.2 ⟨?_, isCheckpointKey_checkpointKey _ _⟩)
      fun key hlisted hle => ?_
    · exact (hlawful.mem_list _ _ _).2 ⟨List.prefix_append _ _, by rw [hbody]; rfl⟩
    · obtain ⟨hlisted, hcheckpoint⟩ := List.mem_filter.1 hlisted
      have hsome := ((hlawful.mem_list _ _ _).1 hlisted).2
      rw [hget key hcheckpoint, Option.isSome_map] at hsome
      obtain ⟨c, hc⟩ := Option.isSome_iff_exists.1 hsome
      obtain ⟨hcmem, rfl⟩ := mem_of_lastSaved hc
      refine (filename_eq_iff hpartition hsaves keyPrefix hcmem hmem).2
        (le_antisymm (hmax c hcmem) ?_)
      exact (filename_isLE_iff hpartition hsaves keyPrefix hmem hcmem).1 hle
  simp only [S3CheckpointStore.loadLatest, hkey, Option.bind_eq_bind, Option.bind_some, hbody,
    Option.map_some]

end Greatest

/-- Every set of checkpoints of a source, saved in any order to a directory or bucket without
checkpoints, leaves the one with the greatest offset as the latest in both stores; checkpoints with
different offsets have different names. -/
theorem latest_checkpoint_is_greatest (read : Text → Option EngineCheckpoint)
    (serialize : EngineCheckpoint → Text) (hpartition : 0 ≤ partition)
    (hsaves : ∀ c ∈ saves, c.SavedFor topic partition) (hne : saves ≠ [])
    {directory : List DirectoryEntry} (hdirectory : ∀ entry ∈ directory, ¬entry.IsCheckpoint)
    {σ : Type} {service : ObjectService σ} (hlawful : service.Lawful) (keyPrefix : Text)
    {bucket : σ} (hbucket : ∀ key, IsCheckpointKey keyPrefix key → service.get key bucket = none) :
    (∃ top ∈ saves,
      (∀ c ∈ saves, c.sourcePosition.nextOffset ≤ top.sourcePosition.nextOffset) ∧
      loadLatest read (some (saves.foldl (FileCheckpointStore.save serialize) directory)) =
        read (serialize top) ∧
      S3CheckpointStore.loadLatest service read keyPrefix
          (saves.foldl (S3CheckpointStore.save service serialize keyPrefix) bucket) =
        read (serialize top)) ∧
    ∀ c ∈ saves, ∀ d ∈ saves, c.sourcePosition.nextOffset ≠ d.sourcePosition.nextOffset →
      checkpointFilenameForId c.checkpointId ≠ checkpointFilenameForId d.checkpointId := by
  constructor
  · obtain ⟨greatest, hgreatest, hmax⟩ := Set.exists_max_image {c | c ∈ saves}
      (fun c => c.sourcePosition.nextOffset) (List.finite_toSet saves) (List.exists_mem_of_ne_nil _ hne)
    obtain ⟨top, htop⟩ : ∃ top, lastSaved (fun c : EngineCheckpoint => c.sourcePosition.nextOffset)
        saves greatest.sourcePosition.nextOffset = some top := exists_lastSaved hgreatest
    obtain ⟨hmem, hoffset⟩ := mem_of_lastSaved htop
    rw [← hoffset] at htop
    have hmax' : ∀ c ∈ saves, c.sourcePosition.nextOffset ≤ top.sourcePosition.nextOffset :=
      fun c hc => (hmax c hc).trans_eq hoffset.symm
    refine ⟨top, hmem, hmax', ?_, ?_⟩
    · rw [loadLatest, latestCheckpointFile_eq hpartition hsaves hmax' htop hdirectory]
      rfl
    · exact latestObject_eq hpartition hsaves hmax' htop hlawful hbucket read
  · intro c hc d hd hoffset hname
    exact hoffset ((filename_eq_iff hpartition hsaves [] hc hd).1 hname)

def sampleCheckpointAt (nextOffset : ℤ) : EngineCheckpoint :=
  { sampleCheckpoint with
    checkpointId := checkpointIdFor ⟨ascii "engine-in", 0, nextOffset⟩
    sourcePosition := ⟨ascii "engine-in", 0, nextOffset⟩ }

theorem savedFor_sampleCheckpointAt {nextOffset : ℤ} (hn : 0 ≤ nextOffset)
    (hn' : nextOffset < 2 ^ 63) :
    (sampleCheckpointAt nextOffset).SavedFor (ascii "engine-in") 0 := ⟨rfl, rfl, rfl, hn, hn'⟩

/-- A service that keeps its objects in a list, the last put first. -/
def sampleObjectService : ObjectService (List (Text × Text)) where
  put key body bucket := (key, body) :: bucket
  list keyPrefix bucket := (bucket.map Prod.fst).filter keyPrefix.isPrefixOf
  get key bucket := (bucket.find? fun object => object.1 = key).map Prod.snd

theorem lawful_sampleObjectService : sampleObjectService.Lawful where
  getsPuts key body other bucket := by
    change (((key, body) :: bucket).find? fun object => object.1 = other).map Prod.snd = _
    rw [List.find?_cons]
    by_cases h : other = key
    · simp [h]
    · simp [h, Ne.symm h, sampleObjectService]
  mem_list keyPrefix key bucket := by
    change key ∈ (bucket.map Prod.fst).filter keyPrefix.isPrefixOf ↔
      keyPrefix <+: key ∧ ((bucket.find? fun object => object.1 = key).map Prod.snd).isSome = true
    rw [List.mem_filter, List.isPrefixOf_iff_prefix, Option.isSome_map, List.find?_isSome, and_comm]
    simp

/-- Offset 100 is saved before offset 9, and stays the latest. -/
theorem latest_checkpoint_is_greatest_sample :
    ∃ top ∈ [sampleCheckpointAt 100, sampleCheckpointAt 9],
      (∀ c ∈ [sampleCheckpointAt 100, sampleCheckpointAt 9],
        c.sourcePosition.nextOffset ≤ top.sourcePosition.nextOffset) ∧
      loadLatest (fun content => some { sampleCheckpoint with checkpointId := content })
          (some (FileCheckpointStore.save EngineCheckpoint.checkpointId
            (FileCheckpointStore.save EngineCheckpoint.checkpointId [] (sampleCheckpointAt 100))
            (sampleCheckpointAt 9))) =
        some { sampleCheckpoint with checkpointId := top.checkpointId } ∧
      S3CheckpointStore.loadLatest sampleObjectService
          (fun content => some { sampleCheckpoint with checkpointId := content })
          (ascii "checkpoints/")
          (S3CheckpointStore.save sampleObjectService EngineCheckpoint.checkpointId
            (ascii "checkpoints/") (S3CheckpointStore.save sampleObjectService
              EngineCheckpoint.checkpointId (ascii "checkpoints/") [] (sampleCheckpointAt 100))
            (sampleCheckpointAt 9)) =
        some { sampleCheckpoint with checkpointId := top.checkpointId } := by
  have hsaves : ∀ c ∈ [sampleCheckpointAt 100, sampleCheckpointAt 9],
      c.SavedFor (ascii "engine-in") 0 := by
    rw [List.forall_mem_cons, List.forall_mem_singleton]
    exact ⟨savedFor_sampleCheckpointAt (by decide) (by decide),
      savedFor_sampleCheckpointAt (by decide) (by decide)⟩
  exact (latest_checkpoint_is_greatest
    (fun content => some { sampleCheckpoint with checkpointId := content })
    EngineCheckpoint.checkpointId le_rfl hsaves (List.cons_ne_nil _ _)
    (fun _ h => absurd h List.not_mem_nil) lawful_sampleObjectService (ascii "checkpoints/")
    fun _ _ => rfl).1

end Latest

end PerpexEngine
