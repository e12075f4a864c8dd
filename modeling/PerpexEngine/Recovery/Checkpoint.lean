import PerpexEngine.Runtime.EngineRuntime

/-! Checkpoints: how they are made and restored, and which file of the directory is the latest. -/
namespace PerpexEngine

/-- `nextOffset` is the first offset that is not included. -/
structure CheckpointSourcePosition where
  topic : Text
  partition : ℤ
  nextOffset : ℤ
deriving DecidableEq, Repr

structure EngineCheckpoint extends EngineRuntime.StateSnapshot where
  schemaVersion : ℕ
  checkpointId : Text
  sourcePosition : CheckpointSourcePosition

def currentEngineCheckpointSchemaVersion : ℕ := 1

/-- `std::isspace` of the C locale. -/
def isSpace (b : UInt8) : Bool := b = 32 || (9 ≤ b && b ≤ 13)

def blank (value : Text) : Bool := value.all isSpace

def validateCheckpointSourcePosition (position : CheckpointSourcePosition) : Option Text :=
  if blank position.topic then some (ascii "checkpoint source topic must not be empty")
  else if position.partition < 0 then
    some (ascii "checkpoint source partition must not be negative")
  else if position.nextOffset < 0 then
    some (ascii "checkpoint source next_offset must not be negative")
  else none

/-- `create_checkpoint`. -/
def createCheckpoint (rt : EngineRuntime) (sourcePosition : CheckpointSourcePosition)
    (checkpointId : Text) : Except Text EngineCheckpoint :=
  match validateCheckpointSourcePosition sourcePosition with
  | some error => .error error
  | none => .ok
      { rt.snapshotState with
        schemaVersion := currentEngineCheckpointSchemaVersion
        checkpointId := checkpointId
        sourcePosition := sourcePosition }

/-- `restore_runtime`. -/
def restoreRuntime (checkpoint : EngineCheckpoint) : RuntimeM Unit :=
  if checkpoint.schemaVersion ≠ currentEngineCheckpointSchemaVersion then
    throw (ascii "unsupported engine checkpoint schema version")
  else
    match validateCheckpointSourcePosition checkpoint.sourcePosition with
    | some error => throw error
    | none => EngineRuntime.restoreState EngineCore.ladderFits checkpoint.toStateSnapshot

section Store

def checkpointFileExtension : Text := ascii ".checkpoint"

/-- A directory entry; a file that cannot be opened has no content. -/
structure DirectoryEntry where
  filename : Text
  isRegularFile : Bool
  content : Option Text
deriving DecidableEq, Repr

/-- `path::extension`: from the last dot on, which is not the first byte. -/
def extension (filename : Text) : Text :=
  let suffix := (filename.reverse.takeWhile (· ≠ 46)).reverse
  if filename.length ≤ suffix.length + 1 ∨ filename = ascii ".." then [] else 46 :: suffix

/-- The last checkpoint file by name; nothing when the directory cannot be read. -/
def latestCheckpointFile (directory : Option (List DirectoryEntry)) : Option DirectoryEntry := do
  let entries ← directory
  ((entries.filter fun entry =>
      entry.isRegularFile && extension entry.filename = checkpointFileExtension).insertionSort
    fun left right => (compare left.filename right.filename).isLE).getLast?

/-- `FileCheckpointStore::load_latest`, given what the reader makes of the content of a file. -/
def loadLatest (read : Text → Option EngineCheckpoint)
    (directory : Option (List DirectoryEntry)) : Option EngineCheckpoint := do
  let file ← latestCheckpointFile directory
  let content ← file.content
  read content

end Store
end PerpexEngine
