import Weibo.Model.Archive

/-!
# Savepoints (`checkpoint/savepoint.go`, `checkpoint/blob.go`)

A savepoint is the archive of a checkpoint, kept in a blob store under a label. `FileBlobstore` maps
keys to files of a directory tree; it cleans a key, and it writes a blob to a temporary file first
that is renamed then. Labels are listed by the last part of the keys that are found.

The blob store has a file tree of its own, whose contents are tar streams; labels and
keys are byte strings.
-/

namespace Weibo

variable {Ops Blob : Type} {β : Type*}

/-! ## Blob store -/

/-- A blob store, and the working directory in which it is used. -/
structure FileBlobstore where
  cwd : List (List Char)
  root : List Char

namespace FileBlobstore

/-- The place of the root. -/
def location (b : FileBlobstore) : List (List Char) := (LexPath.clean b.root).location b.cwd

/-- The path of a key; `none` if the key is not valid. -/
def path (b : FileBlobstore) (key : List Char) : Option LexPath :=
  if key = [] then none
  -- traversal is rejected rather than normalized
  else if ['.', '.'] ∈ LexPath.segments key then none
  else
    let p := LexPath.join b.root (LexPath.clean ('/' :: key)).text
    match LexPath.relTo (LexPath.clean b.root) p with
    | none => none
    | some rel => if rel = ['.', '.'] ∨ ['.', '.', '/'] <+: rel then none else some p

/-- What `os.CreateTemp` may choose as the name of a new file. -/
def IsTemp (t : FileTree β) (dir : List (List Char)) (tmp : List Char) : Prop :=
  IsName tmp ∧ ".blob-".toList <+: tmp ∧ t.isFile (dir ++ [tmp]) = false ∧
    t.isDir (dir ++ [tmp]) = false

instance (t : FileTree β) (dir : List (List Char)) (tmp : List Char) :
    Decidable (IsTemp t dir tmp) := inferInstanceAs (Decidable (_ ∧ _))

/-- Store a blob, by way of a temporary file; `none` if a call fails. -/
def put (b : FileBlobstore) (t : FileTree β) (key tmp : List Char) (content : β) :
    Option (FileTree β) :=
  (b.path key).bind fun p =>
    let dir := (p.location b.cwd).dropLast
    (t.call (.mkdirAll dir)).bind fun t =>
      if IsTemp t dir tmp then
        (t.calls [.write (dir ++ [tmp]) content, .rename (dir ++ [tmp]) (p.location b.cwd)]).map
          -- the deferred `os.Remove`
          fun t => t.erase (dir ++ [tmp])
      else none

/-- Read a blob; `none` if it is not there. -/
def get (b : FileBlobstore) (t : FileTree β) (key : List Char) : Option β :=
  (b.path key).bind fun p => t.lookup (p.location b.cwd)

/-- The keys that start with a given text. -/
def list (b : FileBlobstore) (t : FileTree β) (pre : List Char) : List (List Char) :=
  -- there is nothing to walk at an empty path
  if b.root = [] then []
  else
    ((t.files.entries.filter fun file => b.location.isPrefixOf file.1).map
      fun file => LexPath.rel b.location file.1).filter fun key => pre.isPrefixOf key

end FileBlobstore

/-! ## Savepoints -/

def savepointRoot : List Char := "savepoints/".toList

def savepointKey (label : List Char) : List Char := savepointRoot ++ label

/-- A checkpoint that was promoted, and its archive. -/
structure Promotion where
  label : List Char
  id : String
  archive : TarStream

/-- Archive the latest completed checkpoint and store it under a label. -/
def createSavepoint (codec : RecordCodec Ops Blob) (src : StorageDir)
    (files : FileTree (List Char)) (b : FileBlobstore) (t : FileTree TarStream)
    (label tmp : List Char) : Option (Promotion × FileTree TarStream) :=
  (src.view codec files).loadLatestCompleted.bind fun data =>
    (src.archiveCheckpoint codec files data.id).bind fun archive =>
      (b.put t (savepointKey label) tmp archive).map fun t => (⟨label, data.id, archive⟩, t)

/-- Extract the named savepoint: the calls this makes in the storage, and the ID it returns if none
    fails. -/
def restoreSavepoint (codec : RecordCodec Ops Blob) (dst : StorageDir) (b : FileBlobstore)
    (t : FileTree TarStream) (label : List Char) :
    Option (List (FileTree.Call (List Char)) × Option String) :=
  (b.get t (savepointKey label)).map fun archive => dst.extractCheckpoint codec archive

/-- The labels of all savepoints. -/
def listSavepoints (b : FileBlobstore) (t : FileTree TarStream) : List (List Char) :=
  (b.list t savepointRoot).map LexPath.base

/-! ## Sequences of calls -/

/-- A blob store to which savepoints are added, with the promotions so far, the last one first. -/
structure SavepointStore where
  tree : FileTree TarStream
  promoted : List Promotion

namespace SavepointStore

inductive Event where
  /-- `CreateSavepoint` succeeds; `tmp` is the name of the temporary file. -/
  | create (label tmp : List Char) (src : StorageDir) (files : FileTree (List Char))
  /-- A call fails; it may have made directories. -/
  | fail (dirs : List (List (List Char)))

/-- One call. -/
def step (codec : RecordCodec Ops Blob) (b : FileBlobstore) (s : SavepointStore) :
    Event → Option SavepointStore
  | .create label tmp src files =>
    (createSavepoint codec src files b s.tree label tmp).map fun created =>
      ⟨created.2, created.1 :: s.promoted⟩
  | .fail dirs => some { s with tree := { s.tree with dirs := dirs ++ s.tree.dirs } }

/-- The last checkpoint that was promoted under a label. -/
def lastPromoted (s : SavepointStore) (label : List Char) : Option Promotion :=
  s.promoted.find? fun p => p.label = label

end SavepointStore

end Weibo
