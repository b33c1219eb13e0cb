import Mathlib.Logic.Function.Basic

/-!
# Checkpoint records and their file storage (`checkpoint/checkpoint.go`)

A `CheckpointData` is the unit the coordinator saves and recovery restores. `FileStorage` keeps one
JSON file per checkpoint and two pointer files, `latest.json` (any status) and
`latest-completed.json` (completed only). Each of them is replaced by one `writeFileSync`, which is
atomic, so a save is the list of such writes that `saveLocked` performs: applying the whole list is
an atomic save, applying a prefix of it is a save cut short by a crash.

The contents of a checkpoint are opaque to the storage: `Snap` stands for the
`Operators` and `StateDirs` maps together and `Blob` for the source offsets
under `Source["offset"]`.  The timestamp is read by nothing and left out.
-/

namespace Weibo

/-- Where a checkpoint is in the two-phase commit protocol. `unset` is the empty string of records
    written before the field existed. -/
inductive Status where
  | unset
  | prepared
  | completed
deriving DecidableEq, Repr

/-- The state of a pipeline at a barrier. `operators` is `none` when no state snapshot was
    registered (a nil map), `source` when no offset was. -/
structure CheckpointData (Snap Blob : Type) where
  id : String
  operators : Option Snap
  source : Option Blob
  status : Status
  txnID : String
deriving DecidableEq, Repr

variable {Snap Blob : Type}

/-- Whether the checkpoint is safe to restore from. -/
def CheckpointData.completed (d : CheckpointData Snap Blob) : Bool :=
  d.status == .completed || d.status == .unset

/-- One atomic replacement of a file of the checkpoint directory. -/
inductive FileWrite (Snap Blob : Type) where
  | checkpoint (data : CheckpointData Snap Blob)
  | latest (id : String)
  | latestCompleted (id : String)
deriving DecidableEq, Repr

/-- The checkpoint directory: `checkpoint-<id>.json` for each id, and the two pointer files (`none`
    while a file does not exist). -/
structure FileStorage (Snap Blob : Type) where
  checkpoints : String → Option (CheckpointData Snap Blob)
  latest : Option String
  latestCompleted : Option String

namespace FileStorage

/-- A directory without any checkpoint. -/
def empty : FileStorage Snap Blob := ⟨fun _ => none, none, none⟩

/-- Replace one file: temp file, fsync, rename. -/
def writeFileSync (fs : FileStorage Snap Blob) : FileWrite Snap Blob → FileStorage Snap Blob
  | .checkpoint data =>
    { fs with checkpoints := Function.update fs.checkpoints data.id (some data) }
  | .latest id => { fs with latest := some id }
  | .latestCompleted id => { fs with latestCompleted := some id }

/-- The writes of one save, in order. A record without status is written as completed;
    `latest-completed.json` moves only for a completed record. -/
def saveLocked (data : CheckpointData Snap Blob) : List (FileWrite Snap Blob) :=
  -- legacy records carry no status
  let data := if data.status = .unset then { data with status := .completed } else data
  [.checkpoint data, .latest data.id] ++
    if data.status = .completed then [.latestCompleted data.id] else []

/-- A save that is not interrupted. -/
def save (fs : FileStorage Snap Blob) (data : CheckpointData Snap Blob) : FileStorage Snap Blob :=
  (saveLocked data).foldl writeFileSync fs

/-- Read one checkpoint; `none` when its file does not exist. -/
def loadSpecific (fs : FileStorage Snap Blob) (id : String) : Option (CheckpointData Snap Blob) :=
  fs.checkpoints id

/-- The writes of a status change; `none` is the error for an unknown id. -/
def updateStatusLocked (fs : FileStorage Snap Blob) (id : String) (status : Status) :
    Option (List (FileWrite Snap Blob)) :=
  (fs.loadSpecific id).map fun data => saveLocked { data with status := status }

/-- A status change that is not interrupted. -/
def updateStatus (fs : FileStorage Snap Blob) (id : String) (status : Status) :
    Option (FileStorage Snap Blob) :=
  (fs.updateStatusLocked id status).map fun ws => ws.foldl writeFileSync fs

/-- Read the most recent checkpoint, whatever its status. -/
def load (fs : FileStorage Snap Blob) : Option (CheckpointData Snap Blob) :=
  fs.latest.bind fs.loadSpecific

/-- Read the newest completed checkpoint. Directories that predate the `latest-completed.json`
    pointer fall back to `latest.json`. -/
def loadLatestCompleted (fs : FileStorage Snap Blob) : Option (CheckpointData Snap Blob) :=
  match fs.latestCompleted with
  | some id => fs.loadSpecific id
  | none =>
    -- the pointer is missing in directories written before it existed
    match fs.load with
    | some data => if data.completed then some data else none
    | none => none

/-! ## Saves of prepared and completed records -/

theorem completed_of_prepared {data : CheckpointData Snap Blob} (h : data.status = .prepared) :
    data.completed = false := by
  rw [CheckpointData.completed, h]
  rfl

/-- Saving a prepared record writes its file and moves `latest.json` only. -/
theorem save_prepared (fs : FileStorage Snap Blob) (data : CheckpointData Snap Blob)
    (h : data.status = .prepared) :
    fs.save data =
      { checkpoints := Function.update fs.checkpoints data.id (some data)
        latest := some data.id
        latestCompleted := fs.latestCompleted } := by
  simp [save, saveLocked, h, writeFileSync]

/-- A saved prepared record is the newest checkpoint. -/
theorem load_save_prepared (fs : FileStorage Snap Blob) (data : CheckpointData Snap Blob)
    (h : data.status = .prepared) : (fs.save data).load = some data := by
  rw [save_prepared fs data h]
  simp [load, loadSpecific]

/-- Promoting a stored record rewrites its file and moves both pointers. -/
theorem updateStatus_completed (fs : FileStorage Snap Blob) (id : String)
    (data : CheckpointData Snap Blob) (hload : fs.checkpoints id = some data) (hid : data.id = id) :
    fs.updateStatus id .completed =
      some { checkpoints := Function.update fs.checkpoints id (some { data with status := .completed })
             latest := some id
             latestCompleted := some id } := by
  simp [updateStatus, updateStatusLocked, loadSpecific, hload, saveLocked, writeFileSync, hid]

end FileStorage

end Weibo
