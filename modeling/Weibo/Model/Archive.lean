import Weibo.ForStd.FileTree
import Weibo.ForStd.TextCodec
import Weibo.Model.Checkpoint

/-!
# Checkpoint archives (`checkpoint/archive.go`, `checkpoint/checkpoint.go`)

`FileStorage` on the level of paths and files: `StorageDir` says where it keeps the record and the
state of a checkpoint, and which calls on the file system a save makes. An archive is a tar stream
with the record of a checkpoint first and then the files of its state directories; extracting it
writes those files and saves the record.

All contents are byte strings, one character per byte.  Of `encoding/json` it is
assumed that a record that was encoded is decoded to itself (`RecordCodec`), and of
`archive/tar` that the entries that were written are read back; otherwise a tar
stream may hold any entries and break off anywhere.
-/

namespace Weibo

variable {Ops Blob : Type}

/-- A record with its `StateDirs`, from owners to paths under the state root. -/
abbrev StatefulCheckpoint (Ops Blob : Type) :=
  CheckpointData (Ops × List (String × String)) Blob

/-- The paths of the listed state directories. -/
def CheckpointData.stateDirs (data : StatefulCheckpoint Ops Blob) : List (List Char) :=
  match data.operators with
  | none => []
  | some (_, dirs) => dirs.map fun entry => entry.2.toList

/-- `json.Marshal` and `json.Unmarshal` of records. -/
structure RecordCodec (Ops Blob : Type) where
  encode : StatefulCheckpoint Ops Blob → List Char
  decode : List Char → Option (StatefulCheckpoint Ops Blob)
  decode_encode : ∀ data, decode (encode data) = some data

/-- The status as one character. -/
def Status.toChar : Status → Char
  | .unset => 'u'
  | .prepared => 'p'
  | .completed => 'c'

def Status.ofChar (c : Char) : Status :=
  if c = 'p' then .prepared else if c = 'c' then .completed else .unset

theorem Status.ofChar_toChar : ∀ status : Status, Status.ofChar status.toChar = status
  | .unset => rfl
  | .prepared => rfl
  | .completed => rfl

/-- The fields of a record one after the other. -/
def recordText (ops : TextCodec Ops) (blob : TextCodec Blob) :
    TextCodec (StatefulCheckpoint Ops Blob) :=
  (TextCodec.string.pair ((ops.pair (TextCodec.string.pair .string).list).option.pair
    (blob.option.pair ((TextCodec.char.map _ _ Status.ofChar_toChar).pair .string)))).map
    (fun r => ⟨r.1, r.2.1, r.2.2.1, r.2.2.2.1, r.2.2.2.2⟩)
    (fun d => (d.id, d.operators, d.source, d.status, d.txnID)) fun _ => rfl

/-- There are codecs of records for all contents that can be written down. -/
def RecordCodec.ofText (ops : TextCodec Ops) (blob : TextCodec Blob) : RecordCodec Ops Blob where
  encode := (recordText ops blob).encode
  decode t := ((recordText ops blob).decode t).map Prod.fst
  decode_encode data := by
    have h := (recordText ops blob).decode_encode data []
    rw [List.append_nil] at h
    rw [h, Option.map_some]

/-- A codec of records whose operators and offsets have nothing in them. -/
def RecordCodec.unit : RecordCodec Unit Unit := .ofText .unit .unit

/-! ## Storage -/

/-- Where a `FileStorage` is: its directory, and the working directory in which it is used. -/
structure StorageDir where
  cwd : List (List Char)
  dir : List Char

namespace StorageDir

/-- The place of the directory itself. -/
def root (s : StorageDir) : List (List Char) := (LexPath.clean s.dir).location s.cwd

/-- The directory for native state snapshots of a checkpoint. -/
def stateDir (s : StorageDir) (id : List Char) : LexPath :=
  LexPath.join s.dir ("checkpoint-".toList ++ id ++ ".state".toList)

def recordPath (s : StorageDir) (id : List Char) : LexPath :=
  LexPath.join s.dir ("checkpoint-".toList ++ id ++ ".json".toList)

def latestPath (s : StorageDir) : LexPath := LexPath.join s.dir "latest.json".toList

def latestCompletedPath (s : StorageDir) : LexPath :=
  LexPath.join s.dir "latest-completed.json".toList

/-- Write a file atomically: temp file, then rename. -/
def writeFileSync (p : List (List Char)) (b : List Char) : List (FileTree.Call (List Char)) :=
  let tmp := p.dropLast ++ [p.getLast?.getD [] ++ ".tmp".toList]
  [.write tmp b, .rename tmp p]

/-- The calls of `saveLocked`; `none` if it fails before the first of them. -/
def saveLocked (s : StorageDir) (codec : RecordCodec Ops Blob)
    (data : StatefulCheckpoint Ops Blob) : Option (List (FileTree.Call (List Char))) :=
  -- `os.MkdirAll` of an empty path
  if s.dir = [] then none
  else
    let data := if data.status = .unset then { data with status := .completed } else data
    let id := data.id.toList
    some (.mkdirAll s.root ::
      data.stateDirs.map (fun rel => .sync (((s.stateDir id).append rel).location s.cwd)) ++
      writeFileSync ((s.recordPath id).location s.cwd) (codec.encode data) ++
      writeFileSync (s.latestPath.location s.cwd) id ++
      if data.status = .completed then writeFileSync (s.latestCompletedPath.location s.cwd) id
      else [])

/-- What the storage reads from its files. -/
def view (s : StorageDir) (codec : RecordCodec Ops Blob) (t : FileTree (List Char)) :
    FileStorage (Ops × List (String × String)) Blob where
  checkpoints id := (t.lookup ((s.recordPath id.toList).location s.cwd)).bind codec.decode
  latest := (t.lookup (s.latestPath.location s.cwd)).map String.ofList
  latestCompleted := (t.lookup (s.latestCompletedPath.location s.cwd)).map String.ofList

end StorageDir

/-! ## Tar streams -/

/-- An entry of a tar stream; it is not complete if the stream breaks off in it. -/
structure TarEntry where
  name : List Char
  body : List Char
  complete : Bool

/-- What `tr.Next` returns: some entries, and then `io.EOF` or another error. -/
structure TarStream where
  entries : List TarEntry
  eof : Bool

def archiveMetaName : List Char := "checkpoint.json".toList

def archiveStateRoot : List Char := "state/".toList

namespace StorageDir

/-! ## Archiving -/

/-- Every file under a place, named relative to the state root. -/
def walkIntoTar (t : FileTree (List Char)) (stateRoot base : List (List Char)) : List TarEntry :=
  (t.files.entries.filter fun file => base.isPrefixOf file.1).map fun file =>
    ⟨archiveStateRoot ++ LexPath.rel stateRoot file.1, file.2, true⟩

/-- The tar stream of a record and its state files. -/
def tarStream (codec : RecordCodec Ops Blob) (data : StatefulCheckpoint Ops Blob)
    (files : List TarEntry) : TarStream :=
  ⟨⟨archiveMetaName, codec.encode data, true⟩ :: files, true⟩

/-- The archive of a checkpoint; `none` if there is no such checkpoint. -/
def archiveCheckpoint (s : StorageDir) (codec : RecordCodec Ops Blob) (t : FileTree (List Char))
    (id : String) : Option TarStream :=
  ((s.view codec t).loadSpecific id).map fun data =>
    let stateRoot := s.stateDir id.toList
    tarStream codec data <| data.stateDirs.flatMap fun rel =>
      walkIntoTar t (stateRoot.location s.cwd) ((stateRoot.append rel).location s.cwd)

/-! ## Extracting -/

/-- Whether a state file stays inside the state directory. -/
def isSafe (stateDir dest : LexPath) : Bool := (stateDir.text ++ ['/']).isPrefixOf dest.text

/-- The calls of `writeFileFromTar`. -/
def writeFileFromTar (dest : List (List Char)) (body : List Char) :
    List (FileTree.Call (List Char)) :=
  [.mkdirAll dest.dropLast, .write dest body]

/-- The loop over the entries: the calls it makes, and the last record it read, or `none` if it ends
    with an error. -/
def extractEntries (s : StorageDir) (codec : RecordCodec Ops Blob) (eof : Bool) :
    Option (StatefulCheckpoint Ops Blob) → List TarEntry →
      List (FileTree.Call (List Char)) × Option (Option (StatefulCheckpoint Ops Blob))
  | data, [] => ([], if eof then some data else none)
  | data, e :: rest =>
    if e.name = archiveMetaName then
      -- a later record replaces the one before
      match if e.complete then codec.decode e.body else none with
      | none => ([], none)
      | some data => extractEntries s codec eof (some data) rest
    else
      match archiveStateRoot.isPrefixOf? e.name with
      | none => if e.complete then extractEntries s codec eof data rest else ([], none)
      | some rel =>
        match data with
        | none => ([], none)
        | some d =>
          let stateDir := s.stateDir d.id.toList
          let dest := stateDir.append rel
          if isSafe stateDir dest then
            let calls := writeFileFromTar (dest.location s.cwd) e.body
            if e.complete then
              let (calls', result) := extractEntries s codec eof (some d) rest
              (calls ++ calls', result)
            else (calls, none)
          else ([], none)

/-- What follows the loop: the record is saved. -/
def finishExtract (s : StorageDir) (codec : RecordCodec Ops Blob) :
    List (FileTree.Call (List Char)) × Option (Option (StatefulCheckpoint Ops Blob)) →
      List (FileTree.Call (List Char)) × Option String
  | (calls, some (some data)) =>
    -- a savepoint restores as a completed checkpoint
    match s.saveLocked codec { data with status := .completed } with
    | none => (calls, none)
    | some save => (calls ++ save, some data.id)
  -- there was an error, or no record
  | (calls, _) => (calls, none)

/-- The calls that extracting an archive makes as long as none fails, and the ID it returns if none
    does. -/
def extractCheckpoint (s : StorageDir) (codec : RecordCodec Ops Blob) (archive : TarStream) :
    List (FileTree.Call (List Char)) × Option String :=
  s.finishExtract codec (s.extractEntries codec archive.eof none archive.entries)

/-! ## Saving completed records -/

theorem saveLocked_completed (s : StorageDir) (codec : RecordCodec Ops Blob)
    (data : StatefulCheckpoint Ops Blob) (hdir : s.dir ≠ []) (hstatus : data.status = .completed) :
    s.saveLocked codec data = some (.mkdirAll s.root ::
      data.stateDirs.map
        (fun rel => .sync (((s.stateDir data.id.toList).append rel).location s.cwd)) ++
      writeFileSync ((s.recordPath data.id.toList).location s.cwd) (codec.encode data) ++
      writeFileSync (s.latestPath.location s.cwd) data.id.toList ++
      writeFileSync (s.latestCompletedPath.location s.cwd) data.id.toList) := by
  rw [saveLocked, if_neg hdir, hstatus]
  dsimp only
  rw [if_neg (by decide), hstatus, if_pos rfl]

/-! ## Extracting what was archived -/

theorem extractCheckpoint_tarStream (s : StorageDir) (codec : RecordCodec Ops Blob)
    (data : StatefulCheckpoint Ops Blob) (files : List TarEntry) :
    s.extractCheckpoint codec (tarStream codec data files) =
      s.finishExtract codec (s.extractEntries codec true (some data) files) := by
  rw [extractCheckpoint, tarStream]
  dsimp only
  rw [extractEntries, if_pos rfl, if_pos rfl, codec.decode_encode]

theorem archiveStateRoot_append_ne (rel : List Char) : archiveStateRoot ++ rel ≠ archiveMetaName := by
  intro h
  have hhead := congrArg List.head? h
  rw [List.head?_append, show archiveStateRoot.head? = some 's' from by decide,
    Option.some_or] at hhead
  exact absurd hhead (by decide)

theorem isPrefixOf?_append (l rel : List Char) : l.isPrefixOf? (l ++ rel) = some rel := by
  induction l with
  | nil => rfl
  | cons c l ih => rw [List.cons_append, List.isPrefixOf?, if_pos (beq_self_eq_true c), ih]

/-- A state file that the guard lets through is written. -/
theorem extractEntries_file (s : StorageDir) (codec : RecordCodec Ops Blob)
    (data : StatefulCheckpoint Ops Blob) (rel body : List Char) (rest : List TarEntry)
    (hsafe : isSafe (s.stateDir data.id.toList) ((s.stateDir data.id.toList).append rel) = true) :
    s.extractEntries codec true (some data) (⟨archiveStateRoot ++ rel, body, true⟩ :: rest) =
      (writeFileFromTar (((s.stateDir data.id.toList).append rel).location s.cwd) body ++
        (s.extractEntries codec true (some data) rest).1,
        (s.extractEntries codec true (some data) rest).2) := by
  rw [extractEntries, if_neg (archiveStateRoot_append_ne rel), isPrefixOf?_append]
  dsimp only
  rw [if_pos hsafe, if_pos rfl]

end StorageDir

end Weibo
