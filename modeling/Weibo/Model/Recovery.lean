import Weibo.Model.Checkpoint

/-!
# The recovery decision (`resolveCoordinatedRecovery` in `mailer.go`)

At startup a coordinated pipeline decides which checkpoint to resume from: the
newest one if it is completed, the newest one after promoting it if it is
prepared and its transaction committed, and the newest completed one otherwise.
`DirectoryRun` puts the decision into the runs that lead to it, at the
granularity of single file replacements, with a crash possible between any two.
-/

namespace Weibo

variable {Snap Blob : Type}

/-- The selected checkpoint and the file replacements that recovery makes on the way, given the
    sink's answer for every id. -/
def resolveCoordinatedRecovery (fs : FileStorage Snap Blob) (wasCommitted : String → Bool) :
    Except String (Option (CheckpointData Snap Blob) × List (FileWrite Snap Blob)) :=
  match fs.load with
  | none => .ok (none, [])
  | some latest =>
    if latest.completed then .ok (some latest, [])
    -- prepared: the broker knows whether the commit decision was carried out
    else if wasCommitted latest.id then
      match fs.updateStatusLocked latest.id .completed with
      | none =>
        .error ("promote checkpoint " ++ latest.id ++ ": checkpoint: update status: " ++
          latest.id ++ " not found")
      | some ws => .ok (some { latest with status := .completed }, ws)
    else .ok (fs.loadLatestCompleted, [])

/-- Where the process is. `writing ws next` is inside `Save` or `UpdateStatus`, with the
    replacements `ws` still to make. -/
inductive DirectoryPc (Snap Blob : Type) where
  | down
  | idle
  | writing (ws : List (FileWrite Snap Blob)) (next : DirectoryPc Snap Blob)
  /-- A checkpoint is saved as prepared and its transaction is open. -/
  | prepared (id : String)
  /-- The transaction has committed; the checkpoint is to be promoted. -/
  | committed (id : String)

/-- The checkpoint directory over many runs. `committed` lists the checkpoints whose transaction
    committed, oldest first, and `issued` the ids used. -/
structure DirectoryRun (Snap Blob : Type) where
  fs : FileStorage Snap Blob
  committed : List String
  issued : List String
  pc : DirectoryPc Snap Blob

namespace DirectoryRun

/-- A step of the finalize worker or of recovery, or a crash. -/
inductive Event (Snap Blob : Type) where
  | crash
  | recover
  | save (data : CheckpointData Snap Blob)
  | write
  | finish
  | commit
  | promote

/-- A directory that has never been used. -/
def initial : DirectoryRun Snap Blob := ⟨.empty, [], [], .down⟩

/-- The decision recovery takes in this state, with an exact marker probe. -/
def resolve (s : DirectoryRun Snap Blob) :
    Except String (Option (CheckpointData Snap Blob) × List (FileWrite Snap Blob)) :=
  resolveCoordinatedRecovery s.fs fun id => s.committed.contains id

/-- One event; `none` when it is not enabled. -/
def step (s : DirectoryRun Snap Blob) : Event Snap Blob → Option (DirectoryRun Snap Blob)
  | .crash => some { s with pc := .down }
  | .recover =>
    match s.pc, s.resolve with
    | .down, .ok (_, ws) => some { s with pc := .writing ws .idle }
    | _, _ => none
  | .save data =>
    match s.pc with
    | .idle =>
      -- ids are fresh, and the coordinator saves prepared records only
      if data.id ∈ s.issued ∨ data.status ≠ .prepared then none
      else some { s with
        issued := data.id :: s.issued
        pc := .writing (FileStorage.saveLocked data) (.prepared data.id) }
    | _ => none
  | .write =>
    match s.pc with
    -- one atomic replacement at a time; a crash may come before the next
    | .writing (w :: ws) next => some { s with fs := s.fs.writeFileSync w, pc := .writing ws next }
    | _ => none
  | .finish =>
    match s.pc with
    | .writing [] next => some { s with pc := next }
    | _ => none
  | .commit =>
    match s.pc with
    | .prepared id => some { s with committed := s.committed ++ [id], pc := .committed id }
    | _ => none
  | .promote =>
    match s.pc with
    | .committed id =>
      (s.fs.updateStatusLocked id .completed).map fun ws => { s with pc := .writing ws .idle }
    | _ => none

/-- Recovery from this state selects the checkpoint whose transaction is the most recently committed
    one, none if no transaction has committed. -/
def SelectsLastCommitted (s : DirectoryRun Snap Blob) : Prop :=
  ∃ cp ws, s.resolve = .ok (cp, ws) ∧ cp.map CheckpointData.id = s.committed.getLast?

/-- When a save renames `latest.json` to a prepared checkpoint, `latest-completed.json` names the
    most recently committed one. -/
def Synced (s : DirectoryRun Snap Blob) : Event Snap Blob → Prop
  | .write =>
    match s.pc with
    | .writing (.latest _ :: _) (.prepared _) => s.fs.latestCompleted = s.committed.getLast?
    | _ => True
  | _ => True

end DirectoryRun

end Weibo
