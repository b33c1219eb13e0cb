import Weibo.Spec.StorageFiles

/-!
# Archiving a checkpoint and extracting it

An archive holds the record of a checkpoint and every file of its listed state directories, named by
the path from the state root. Extracting it elsewhere appends these names to the state root there;
the guard never rejects one, because they are names, and no two files are in each other's way,
because they were not where they come from.

## Key results

- `mem_stateFiles`: which files an archive has
- `extractEntries_files`: extraction writes each of them below the new state root
- `archive_extract`: the extracted checkpoint is the archived one
-/

namespace Weibo

open List FileTree

variable {Ops Blob : Type} {f : List (List Char) × List Char} {data : StatefulCheckpoint Ops Blob}
  {t : FileTree (List Char)} {s : StorageDir}

/-- A path below the state root that leads into one of the listed directories. -/
def CheckpointData.Lists (data : StatefulCheckpoint Ops Blob) (names : List (List Char)) : Prop :=
  ∃ rel ∈ data.stateDirs, (LexPath.below rel).names <+: names

namespace StorageDir

/-- A storage without any files, in a place where its directory is or can be made. -/
structure Vacant (s : StorageDir) (t : FileTree (List Char)) : Prop where
  nothing : ∀ q, s.Under q → t.lookup q = none ∧ t.isDir q = false
  above : ∀ q, q <+: s.root → t.lookup q = none

/-- A directory inside the state root of a checkpoint, with at least one file at some depth. -/
structure HasFiles (s : StorageDir) (t : FileTree (List Char)) (id : String) (rel : List Char) :
    Prop where
  isLocal : LexPath.IsLocal rel
  isDir : t.isDir (((s.stateDir id.toList).append rel).location s.cwd) = true
  file : ∃ p, ((s.stateDir id.toList).append rel).location s.cwd <+: p ∧ t.isFile p = true

/-! ## The files of an archive -/

/-- The files in a directory, by their names from the state root. -/
def filesIn (t : FileTree (List Char)) (stateRoot base : List (List Char)) :
    List (List (List Char) × List Char) :=
  (t.files.entries.filter fun file => base.isPrefixOf file.1).map fun file =>
    (file.1.drop stateRoot.length, file.2)

theorem mem_filesIn {stateRoot l : List (List Char)} : f ∈ filesIn t stateRoot (stateRoot ++ l) ↔
      l <+: f.1 ∧ t.lookup (stateRoot ++ f.1) = some f.2 := by
  constructor
  · intro hf
    obtain ⟨file, hfile, rfl⟩ := mem_map.mp hf
    obtain ⟨hmem, hpre⟩ := mem_filter.mp hfile
    obtain ⟨rest, hrest⟩ := isPrefixOf_iff_prefix.mp hpre
    have hlookup := mem_entries_iff.mp hmem
    rw [← hrest, append_assoc] at hlookup ⊢
    rw [drop_left]
    exact ⟨prefix_append l rest, hlookup⟩
  · rintro ⟨hpre, hlookup⟩
    refine mem_map.mpr ⟨⟨stateRoot ++ f.1, f.2⟩, ?_, ?_⟩
    · exact mem_filter.mpr ⟨mem_entries_iff.mpr hlookup,
        isPrefixOf_iff_prefix.mpr ((prefix_append_right_inj stateRoot).mpr hpre)⟩
    · rw [drop_left]

/-- The name of a state file in an archive. -/
def fileEntry (f : List (List Char) × List Char) : TarEntry :=
  ⟨archiveStateRoot ++ LexPath.joined f.1, f.2, true⟩

/-- Files in a directory below the state root, with names that lead on from it. -/
theorem walkIntoTar_eq (ht : t.Proper) {stateRoot l : List (List Char)}
    (hdir : t.isDir (stateRoot ++ l) = true) :
    walkIntoTar t stateRoot (stateRoot ++ l) =
      (filesIn t stateRoot (stateRoot ++ l)).map fileEntry := by
  rw [walkIntoTar, filesIn, map_map]
  refine map_congr_left fun file hfile => ?_
  obtain ⟨hmem, hpre⟩ := mem_filter.mp hfile
  obtain ⟨rest, hrest⟩ := isPrefixOf_iff_prefix.mp hpre
  have hisFile := isFile_of_lookup (mem_entries_iff.mp hmem)
  have hne : l ++ rest ≠ [] := by
    intro hnil
    rw [append_assoc, hnil, append_nil] at hrest
    obtain ⟨hl, -⟩ := append_eq_nil_iff.mp hnil
    rw [hl, append_nil, hrest, (ht.file _ hisFile).1] at hdir
    exact Bool.false_ne_true hdir
  rw [Function.comp_apply, fileEntry]
  dsimp only
  rw [← hrest, append_assoc, LexPath.rel, LexPath.relParts_append, if_neg hne, drop_left]

/-- All the files that an archive has. -/
def stateFiles (s : StorageDir) (t : FileTree (List Char)) (data : StatefulCheckpoint Ops Blob) :
    List (List (List Char) × List Char) :=
  data.stateDirs.flatMap fun rel => filesIn t (s.root ++ [stateName data.id])
    (s.root ++ [stateName data.id] ++ (LexPath.below rel).names)

theorem mem_stateFiles : f ∈ s.stateFiles t data ↔
      data.Lists f.1 ∧ t.lookup (s.root ++ [stateName data.id] ++ f.1) = some f.2 := by
  rw [stateFiles, mem_flatMap]
  constructor
  · rintro ⟨rel, hrel, hf⟩
    obtain ⟨hpre, hlookup⟩ := mem_filesIn.mp hf
    exact ⟨⟨rel, hrel, hpre⟩, hlookup⟩
  · rintro ⟨⟨rel, hrel, hpre⟩, hlookup⟩
    exact ⟨rel, hrel, mem_filesIn.mpr ⟨hpre, hlookup⟩⟩

/-- A local path of the state root, as a place. -/
theorem stateDir_append_location (s : StorageDir) {id : String} (hid : PlainId id)
    {rel : List Char} (hrel : LexPath.IsLocal rel) :
    ((s.stateDir id.toList).append rel).location s.cwd =
      s.root ++ [stateName id] ++ (LexPath.below rel).names := by
  rw [((s.stateDir id.toList).append_local hrel).location_eq, s.stateDir_location hid]

/-- An archive is the record with the files of the listed directories. -/
theorem archiveCheckpoint_eq {codec : RecordCodec Ops Blob} (ht : t.Proper)
    (hid : PlainId data.id) (hload : (s.view codec t).loadSpecific data.id = some data)
    (hdirs : ∀ rel ∈ data.stateDirs, s.HasFiles t data.id rel) :
    s.archiveCheckpoint codec t data.id =
      some (tarStream codec data ((s.stateFiles t data).map fileEntry)) := by
  rw [archiveCheckpoint, hload, Option.map_some, stateFiles, map_flatMap]
  dsimp only
  congr 2
  refine flatMap_congr fun rel hrel => ?_
  have hlocation := s.stateDir_append_location hid (hdirs rel hrel).isLocal
  have hdir := (hdirs rel hrel).isDir
  rw [hlocation] at hdir
  rw [hlocation, s.stateDir_location hid, walkIntoTar_eq ht hdir]

/-! ## Extraction -/

/-- The files are written below the state root, and the guard rejects none. -/
theorem extractEntries_files (s : StorageDir) (codec : RecordCodec Ops Blob) (hid : PlainId data.id)
    {fs : List (List (List Char) × List Char)} (hne : ∀ f ∈ fs, f.1 ≠ [])
    (hname : ∀ f ∈ fs, ∀ n ∈ f.1, IsName n) :
    s.extractEntries codec true (some data) (fs.map fileEntry) =
      (writeAll (fs.map fun f => (s.root ++ [stateName data.id] ++ f.1, f.2)),
        some (some data)) := by
  induction fs with
  | nil => rfl
  | cons f fs ih =>
    obtain ⟨hnef, hnefs⟩ := forall_mem_cons.mp hne
    obtain ⟨hnamef, hnamefs⟩ := forall_mem_cons.mp hname
    have hext := (s.stateDir data.id.toList).append_joined hnamef hnef
    have hsafe := (s.isSafe_iff data.id.toList _).mpr ⟨f.1, hnef, hext⟩
    rw [map_cons, fileEntry, extractEntries_file s codec data _ f.2 _ hsafe, ih hnefs hnamefs,
      hext.location_eq, s.stateDir_location hid]
    rfl

/-! ## Extraction into an empty storage -/

/-- Nothing is above a place in an empty storage. -/
theorem Vacant.lookup_none {u : FileTree (List Char)} (hu : s.Vacant u)
    {p q : List (List Char)} (hp : s.root <+: p) (hq : q <+: p) : u.lookup q = none := by
  rcases prefix_or_prefix_of_prefix hq hp with h | h
  · exact hu.above q h
  · by_cases heq : q = s.root
    · exact hu.above q (heq ▸ prefix_rfl)
    · exact (hu.nothing q ⟨h, heq⟩).1

theorem Vacant.free {u : FileTree (List Char)} (hu : s.Vacant u)
    {p : List (List Char)} (hp : s.Under p) : u.Free p :=
  ⟨(hu.nothing p hp).2, fun _ hq => hu.lookup_none hp.1 (hq.trans ( dropLast_prefix p))⟩

theorem stateFiles_spec (ht : t.Proper) (hid : PlainId data.id)
    (hdirs : ∀ rel ∈ data.stateDirs, s.HasFiles t data.id rel) (hf : f ∈ s.stateFiles t data) :
    f.1 ≠ [] ∧ ∀ n ∈ f.1, IsName n := by
  obtain ⟨⟨rel, hrel, hpre⟩, hlookup⟩ := mem_stateFiles.mp hf
  have hfile := isFile_of_lookup hlookup
  refine ⟨fun hnil => ?_, fun n hn => ht.isName _ hfile n (mem_append_right _ hn)⟩
  -- the state root would be a file and a directory
  have hdir := (hdirs rel hrel).isDir
  rw [hnil] at hpre hfile
  rw [s.stateDir_append_location hid (hdirs rel hrel).isLocal, prefix_nil.mp hpre,
    (ht.file _ hfile).1] at hdir
  exact Bool.false_ne_true hdir

/-- The places to which state files are extracted. -/
def extracted (src dst : StorageDir) (t : FileTree (List Char))
    (data : StatefulCheckpoint Ops Blob) : List (List (List Char) × List Char) :=
  (src.stateFiles t data).map fun f => (dst.root ++ [stateName data.id] ++ f.1, f.2)

theorem mem_extracted {src dst : StorageDir} {names : List (List Char)} {b : List Char} :
    (dst.root ++ [stateName data.id] ++ names, b) ∈ src.extracted dst t data ↔
      data.Lists names ∧ t.lookup (src.root ++ [stateName data.id] ++ names) = some b := by
  rw [extracted, mem_map]
  constructor
  · rintro ⟨f, hf, heq⟩
    obtain ⟨hnames, rfl⟩ := Prod.mk.inj heq
    obtain rfl := append_cancel_left hnames
    exact mem_stateFiles.mp hf
  · intro h
    exact ⟨(names, b), mem_stateFiles.mpr h, rfl⟩

section Extracted

variable {src dst : StorageDir} {t u : FileTree (List Char)} {data : StatefulCheckpoint Ops Blob}
  (ht : t.Proper) (hid : PlainId data.id)
  (hdirs : ∀ rel ∈ data.stateDirs, src.HasFiles t data.id rel) (hu : dst.Vacant u)

/-- Every extracted file is below the state root, and comes from a file below the other one. -/
theorem exists_of_mem_extracted (hf : f ∈ src.extracted dst t data) : ∃ names,
      f.1 = dst.root ++ [stateName data.id] ++ names ∧ (names, f.2) ∈ src.stateFiles t data ∧
      t.lookup (src.root ++ [stateName data.id] ++ names) = some f.2 := by
  obtain ⟨g, hg, rfl⟩ := mem_map.mp hf
  exact ⟨g.1, rfl, hg, (mem_stateFiles.mp hg).2⟩

theorem under_of_mem_extracted (hf : f ∈ src.extracted dst t data) : dst.Under f.1 := by
  obtain ⟨names, hnames, -⟩ := exists_of_mem_extracted hf
  rw [hnames, append_assoc]
  exact under_append prefix_rfl (cons_ne_nil _ _)

include ht in
/-- No extracted file is above another, and none has two contents. -/
theorem extracted_eq_of_isPrefix {g : List (List Char) × List Char}
    (hf : f ∈ src.extracted dst t data) (hg : g ∈ src.extracted dst t data) (hpre : f.1 <+: g.1) : f.1 = g.1 ∧ f.2 = g.2 := by
  obtain ⟨names, hnames, -, hlookup⟩ := exists_of_mem_extracted hf
  obtain ⟨names', hnames', -, hlookup'⟩ := exists_of_mem_extracted hg
  rw [hnames, hnames', prefix_append_right_inj] at hpre
  -- they were not above each other where they come from
  have heq := ht.eq_of_isPrefix (isFile_of_lookup hlookup')
    (isFile_of_lookup hlookup) ((prefix_append_right_inj _).mpr hpre)
  rw [heq, hlookup'] at hlookup
  rw [hnames, hnames', append_cancel_left heq]
  exact ⟨rfl, (Option.some.inj hlookup).symm⟩

include ht hu in
theorem calls_extracted : u.calls (writeAll (src.extracted dst t data)) =
    some (u.putAll (src.extracted dst t data)) := by
  refine calls_writeAll (fun f hf hnil => ?_) (fun f hf => hu.free (under_of_mem_extracted hf))
    fun f hf g hg ⟨hpre, hne⟩ => hne (extracted_eq_of_isPrefix ht hf hg hpre).1
  obtain ⟨names, hnames, -⟩ := exists_of_mem_extracted hf
  rw [hnil, append_assoc] at hnames
  exact absurd (append_eq_nil_iff.mp hnames.symm).2 (cons_ne_nil _ _)

include ht hu in
/-- The state root then holds the files of the listed directories. -/
theorem lookup_extracted (names : List (List Char)) (b : List Char) :
    (u.putAll (src.extracted dst t data)).lookup (dst.root ++ [stateName data.id] ++ names) =
      some b ↔
    data.Lists names ∧ t.lookup (src.root ++ [stateName data.id] ++ names) = some b := by
  have hfun : ∀ f ∈ src.extracted dst t data, ∀ g ∈ src.extracted dst t data, f.1 = g.1 →
      f.2 = g.2 := fun f hf g hg heq =>
    (extracted_eq_of_isPrefix ht hf hg (heq ▸ prefix_rfl)).2
  have hunder : dst.Under (dst.root ++ [stateName data.id] ++ names) := by
    rw [append_assoc]
    exact under_append prefix_rfl (cons_ne_nil _ _)
  rw [lookup_putAll_eq_some_iff hfun, mem_extracted, (hu.nothing _ hunder).1]
  exact or_iff_left fun h => absurd h.2 (by simp)

include hu in
/-- Nothing is above the storage directory. -/
theorem lookup_extracted_above {q : List (List Char)} (hq : q <+: dst.root) :
    (u.putAll (src.extracted dst t data)).lookup q = none := by
  rw [lookup_putAll_of_notMem, hu.above q hq]
  rintro f hf rfl
  obtain ⟨hroot, hne⟩ := under_of_mem_extracted hf
  exact hne (hq.eq_of_length_le hroot.length_le)

include hu in
/-- The state root is the only directory in the storage. -/
theorem isDir_extracted {n : List Char} (hn : n ≠ stateName data.id) :
    (u.putAll (src.extracted dst t data)).isDir (dst.root ++ [n]) = false := by
  have hunder : dst.Under (dst.root ++ [n]) := under_append prefix_rfl (cons_ne_nil _ _)
  rw [← Bool.not_eq_true, isDir_putAll, (hu.nothing _ hunder).2, not_or]
  refine ⟨?_, Bool.false_ne_true⟩
  rintro ⟨f, hf, hpre⟩
  obtain ⟨names, hnames, -⟩ := exists_of_mem_extracted hf
  have hpre' := hpre.trans ( dropLast_prefix f.1)
  rw [hnames, append_assoc, prefix_append_right_inj, singleton_append, cons_prefix_cons] at hpre'
  exact hn hpre'.1

include ht hid hdirs in
/-- The listed directories are there again. -/
theorem isDir_extracted_listed {rel : List Char} (hrel : rel ∈ data.stateDirs) :
    (u.putAll (src.extracted dst t data)).isDir
      (((dst.stateDir data.id.toList).append rel).location dst.cwd) = true := by
  obtain ⟨hlocal, hdir, p, hp, hfile⟩ := hdirs rel hrel
  rw [src.stateDir_append_location hid hlocal] at hdir hp
  rw [dst.stateDir_append_location hid hlocal]
  obtain ⟨rest, rfl⟩ := hp
  obtain ⟨b, hb⟩ := Option.isSome_iff_exists.mp hfile
  rw [append_assoc] at hb
  have hmem : (dst.root ++ [stateName data.id] ++ ((LexPath.below rel).names ++ rest), b) ∈
      src.extracted dst t data :=
    mem_extracted.mpr ⟨⟨rel, hrel, prefix_append _ rest⟩, hb⟩
  have hrest : rest ≠ [] := by
    rintro rfl
    rw [append_nil, isFile] at hfile
    rw [(ht.file _ hfile).1] at hdir
    exact Bool.false_ne_true hdir
  refine isDir_putAll.mpr (Or.inl ⟨_, hmem, ?_⟩)
  rw [← append_assoc, dropLast_append_of_ne_nil hrest]
  exact prefix_append _ _

end Extracted

/-- A checkpoint that is archived and extracted into an empty storage is there as a completed one,
    both as the newest and as the newest completed checkpoint, and its state root holds exactly the
    files of the listed directories, by the same names and with the same contents. -/
theorem archive_extract (src dst : StorageDir) (codec : RecordCodec Ops Blob)
    (t u : FileTree (List Char)) (data : StatefulCheckpoint Ops Blob) (ht : t.Proper)
    (hid : PlainId data.id) (hload : (src.view codec t).loadSpecific data.id = some data)
    (hdirs : ∀ rel ∈ data.stateDirs, src.HasFiles t data.id rel) (hdst : dst.dir ≠ [])
    (hu : dst.Vacant u) :
    ∃ archive u', src.archiveCheckpoint codec t data.id = some archive ∧
      (dst.extractCheckpoint codec archive).2 = some data.id ∧
      u.calls (dst.extractCheckpoint codec archive).1 = some u' ∧
      (dst.view codec u').loadLatestCompleted = some { data with status := .completed } ∧
      (dst.view codec u').load = some { data with status := .completed } ∧
      ∀ names b, u'.lookup ((dst.stateDir data.id.toList).location dst.cwd ++ names) = some b ↔
        data.Lists names ∧
          t.lookup ((src.stateDir data.id.toList).location src.cwd ++ names) = some b := by
  have harchive := archiveCheckpoint_eq ht hid hload hdirs
  have hentries := dst.extractEntries_files codec hid
    (fun f hf => (stateFiles_spec ht hid hdirs hf).1)
    (fun f hf => (stateFiles_spec ht hid hdirs hf).2)
  obtain ⟨cs, u', hsave, hcalls⟩ := calls_saveLocked (s := dst) codec
    { data with status := .completed } hdst rfl hid (fun q hq => lookup_extracted_above hu hq)
    (fun rel hrel => isDir_extracted_listed ht hid hdirs hrel)
    (fun n hn => isDir_extracted hu hn)
  have hextract : dst.extractCheckpoint codec
      (tarStream codec data ((src.stateFiles t data).map fileEntry)) =
        (FileTree.writeAll (src.extracted dst t data) ++ cs, some data.id) := by
    rw [extractCheckpoint_tarStream, hentries, finishExtract, hsave]
    rfl
  have hid' : PlainId ({ data with status := .completed } : StatefulCheckpoint Ops Blob).id := hid
  obtain ⟨hload', hcompleted⟩ := load_save hid' rfl hsave hcalls
  -- a save writes no file below the state root
  have hwrites : FileTree.WritesOnly (fun q => ∃ n, n ≠ stateName data.id ∧ q = dst.root ++ [n]) cs :=
    saveLocked_writesOnly hsave (dst.recordPath_location hid')
      ⟨_, recordName_ne_stateName _ _, rfl⟩ ⟨_, (stateName_ne_tmp _ _).symm, rfl⟩
      fun m hm => ⟨m, ne_of_head hm (stateName_head data.id) (by decide), rfl⟩
  refine ⟨_, u', harchive, by rw [hextract], ?_, hcompleted, hload', fun names b => ?_⟩
  · rw [hextract, FileTree.calls_append, calls_extracted ht hu, Option.bind_some, hcalls]
  · rw [dst.stateDir_location hid, src.stateDir_location hid, ← lookup_extracted ht hu names b,
      FileTree.lookup_calls hcalls hwrites]
    rintro ⟨n, hn, heq⟩
    rw [append_assoc] at heq
    exact hn (cons.inj (append_cancel_left heq)).1.symm

/-- A prepared checkpoint with one state directory. -/
def oneDir : StatefulCheckpoint Unit Unit :=
  ⟨"1", some ((), [("worker-0", "worker-0")]), none, .prepared, ""⟩

/-- The files of a storage at `/a` that has this checkpoint, with one state file. -/
def oneDirFiles (codec : RecordCodec Unit Unit) : List (List (List Char) × List Char) :=
  [(["a".toList, "checkpoint-1.state".toList, "worker-0".toList, "x".toList], "y".toList),
    (["a".toList, "checkpoint-1.json".toList], codec.encode oneDir)]

theorem oneDir_proper (codec : RecordCodec Unit Unit) :
    (empty.putAll (oneDirFiles codec)).Proper := by
  have hcalls : empty.calls (writeAll (oneDirFiles codec)) =
      some (empty.putAll (oneDirFiles codec)) := rfl
  refine proper_empty.calls hcalls (writeAll_writesOnly ?_)
  simp only [oneDirFiles, forall_mem_cons]
  exact ⟨by decide, by decide, fun _ hf => absurd hf not_mem_nil⟩

theorem oneDir_load (codec : RecordCodec Unit Unit) : ((StorageDir.mk [] "/a".toList).view codec
    (empty.putAll (oneDirFiles codec))).loadSpecific oneDir.id = some oneDir :=
  codec.decode_encode oneDir

theorem oneDir_file (codec : RecordCodec Unit Unit) : (empty.putAll (oneDirFiles codec)).lookup
      ["a".toList, "checkpoint-1.state".toList, "worker-0".toList, "x".toList] =
    some "y".toList := rfl

theorem oneDir_hasFiles (codec : RecordCodec Unit Unit) : ∀ rel ∈ oneDir.stateDirs,
    (StorageDir.mk [] "/a".toList).HasFiles (empty.putAll (oneDirFiles codec)) oneDir.id rel := by
  intro rel hrel
  rw [mem_singleton.mp hrel]
  exact ⟨by decide, rfl, _, by decide, isFile_of_lookup (oneDir_file codec)⟩

theorem archive_extract_oneDir : ∃ archive u',
    (StorageDir.mk [] "/a".toList).archiveCheckpoint .unit
      (FileTree.empty.putAll (oneDirFiles .unit)) "1" = some archive ∧
    FileTree.empty.calls ((StorageDir.mk [] "/b".toList).extractCheckpoint .unit archive).1 =
      some u' ∧
    ((StorageDir.mk [] "/b".toList).view .unit u').load =
      some { oneDir with status := .completed } ∧
    u'.lookup ["b".toList, "checkpoint-1.state".toList, "worker-0".toList, "x".toList] =
      some "y".toList := by
  have hvacant : (StorageDir.mk [] "/b".toList).Vacant FileTree.empty := by
    refine ⟨fun q hq => ⟨rfl, ?_⟩, fun _ _ => rfl⟩
    have hne : q ≠ [] := fun hnil => absurd (hnil ▸ hq.1) (by decide)
    simpa [FileTree.isDir, FileTree.empty] using hne
  obtain ⟨archive, u', harchive, -, hcalls, -, hload', hfiles⟩ :=
    archive_extract ⟨[], "/a".toList⟩ ⟨[], "/b".toList⟩ .unit
      (FileTree.empty.putAll (oneDirFiles .unit)) FileTree.empty oneDir (oneDir_proper .unit)
      (by decide) (oneDir_load .unit) (oneDir_hasFiles .unit) (by decide) hvacant
  exact ⟨archive, u', harchive, hcalls, hload',
    (hfiles ["worker-0".toList, "x".toList] "y".toList).mpr
      ⟨⟨_, mem_singleton_self _, by decide⟩, oneDir_file .unit⟩⟩

end StorageDir

end Weibo
