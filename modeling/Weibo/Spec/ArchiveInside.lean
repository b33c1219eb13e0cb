import Weibo.Model.Archive

/-!
# Extraction and the storage directory

Extracting an archive guards the names of the state files: none may leave the state directory of the
checkpoint. That directory, and the path of the record, are made from the ID in the archive's own
record, and nothing looks at the ID. An ID with slashes in it leads to a place of its own, its
`home`, in which the record, the temporary file for it and the state directory are made.

## Key results

- `extractEntries_under`, `saveLocked_under`: what is written lies below the homes
  of the IDs that the archive names, or in the storage directory
- `extractCheckpoint_stays_inside`: nothing is written outside the storage directory
  exactly if all these homes are in it
-/

namespace Weibo

open List Option LexPath
open FileTree (Call WritesOnly)

variable {Ops Blob : Type} {codec : RecordCodec Ops Blob} {s : StorageDir}
  {data : StatefulCheckpoint Ops Blob} {d : List (List Char)} {ids : Set String}

/-- The records of an archive have IDs of a set. -/
def TarStream.IdsIn (archive : TarStream) (codec : RecordCodec Ops Blob) (ids : Set String) :
    Prop :=
  ∀ e ∈ archive.entries, e.name = archiveMetaName → ∀ data, codec.decode e.body = some data →
    data.id ∈ ids

namespace StorageDir

/-- The place in which the files for a checkpoint ID are made: what comes before the last slash of
    their path. -/
def home (s : StorageDir) (id : List Char) : LexPath :=
  (LexPath.segments ("checkpoint-".toList ++ id)).dropLast.foldl LexPath.push
    (LexPath.clean s.dir)

/-- An ID whose files are made in the storage directory, or below. -/
def Inside (s : StorageDir) (id : List Char) : Prop := s.root <+: (s.home id).location s.cwd

instance (s : StorageDir) (id : List Char) : Decidable (s.Inside id) :=
  inferInstanceAs (Decidable (_ <+: _))

/-- A file that lies under the storage directory. -/
def Under (s : StorageDir) (q : List (List Char)) : Prop := s.root <+: q ∧ q ≠ s.root

instance (s : StorageDir) (q : List (List Char)) : Decidable (s.Under q) :=
  inferInstanceAs (Decidable (_ ∧ _))

/-! ## Where the files of an ID are -/

theorem home_spec (s : StorageDir) (id : List Char) : ∃ last,
    (s.home id).Extends (s.stateDir id) [last ++ ".state".toList] ∧
    (s.home id).Extends (s.recordPath id) [last ++ ".json".toList] := by
  obtain ⟨last, -, happend⟩ := (clean s.dir).append_append ("checkpoint-".toList ++ id)
  refine ⟨last, ?_, ?_⟩
  · rw [stateDir, join_eq s.dir (by simp)]
    exact happend _ (by decide) (by decide)
  · rw [recordPath, join_eq s.dir (by simp)]
    exact happend _ (by decide) (by decide)

theorem latestPath_location (s : StorageDir) :
    s.latestPath.location s.cwd = s.root ++ ["latest.json".toList] := by
  rw [latestPath, join_eq s.dir (by decide)]
  exact ((clean s.dir).append_name (by decide)).location_eq s.cwd

theorem latestCompletedPath_location (s : StorageDir) :
    s.latestCompletedPath.location s.cwd = s.root ++ ["latest-completed.json".toList] := by
  rw [latestCompletedPath, join_eq s.dir (by decide)]
  exact ((clean s.dir).append_name (by decide)).location_eq s.cwd

/-! ## Calls below the storage directory -/

theorem under_append {rest : List (List Char)} (h : s.root <+: d) (hne : rest ≠ []) : s.Under (d ++ rest) := by
  refine ⟨h.trans (prefix_append d rest), fun heq => ?_⟩
  have hlen := h.length_le
  have hpos := length_pos_of_ne_nil hne
  rw [← heq, length_append] at hlen
  omega

theorem not_under_concat (h : ¬ s.root <+: d) (n : List Char) : ¬ s.Under (d ++ [n]) := by
  rintro ⟨hroot, hne⟩
  rcases prefix_concat_iff.mp hroot with heq | hroot
  · exact hne heq.symm
  · exact h hroot

/-- A file is replaced by way of another one in the same directory. -/
theorem writeFileSync_writesOnly {P : List (List Char) → Prop}
    {n : List Char} (hn : P (d ++ [n])) (htmp : P (d ++ [n ++ ".tmp".toList])) (b : List Char) :
    WritesOnly P (writeFileSync (d ++ [n]) b) := by
  intro c hc q hq
  simp only [writeFileSync, dropLast_concat, getLast?_concat, getD_some,
    mem_cons, not_mem_nil, or_false] at hc
  rcases hc with rfl | rfl
  · rw [mem_singleton.mp hq]
    exact htmp
  · rcases mem_cons.mp hq with rfl | hq
    · exact htmp
    · rw [mem_singleton.mp hq]
      exact hn

theorem mkdirAll_sync_writesOnly (P : List (List Char) → Prop) (root : List (List Char))
    {α : Type} (l : List α) (f : α → List (List Char)) :
    WritesOnly P
      (.mkdirAll root :: l.map (fun a => Call.sync (f a)) :
        List (Call (List Char))) := by
  intro c hc q hq
  rcases mem_cons.mp hc with rfl | hc
  · cases hq
  · obtain ⟨a, -, rfl⟩ := List.mem_map.mp hc
    cases hq

/-- A save writes the record and the pointers in the storage directory. -/
theorem saveLocked_writesOnly {cs : List (Call (List Char))}
    (h : s.saveLocked codec data = some cs) {P : List (List Char) → Prop} {n : List Char}
    (hrecord : (s.recordPath data.id.toList).location s.cwd = d ++ [n]) (hn : P (d ++ [n]))
    (htmp : P (d ++ [n ++ ".tmp".toList]))
    (hpointer : ∀ m, m.head? = some 'l' → P (s.root ++ [m])) : WritesOnly P cs := by
  have hid : (if data.status = .unset then { data with status := .completed } else data).id =
      data.id := by
    split <;> rfl
  rw [saveLocked] at h
  split at h <;> cases h
  generalize (if data.status = .unset then { data with status := .completed } else data) = data'
    at hid ⊢
  rw [hid, hrecord, latestPath_location, latestCompletedPath_location]
  refine (((mkdirAll_sync_writesOnly P _ _ _).append (writeFileSync_writesOnly hn htmp _)).append
    (writeFileSync_writesOnly (hpointer _ (by decide)) (hpointer _ (by decide)) _)).append ?_
  split
  · exact writeFileSync_writesOnly (hpointer _ (by decide)) (hpointer _ (by decide)) _
  · exact FileTree.writesOnly_nil P

theorem saveLocked_under {cs : List (Call (List Char))}
    (hin : s.Inside data.id.toList) (h : s.saveLocked codec data = some cs) :
    WritesOnly s.Under cs := by
  obtain ⟨last, -, hrecord⟩ := s.home_spec data.id.toList
  exact saveLocked_writesOnly h (hrecord.location_eq s.cwd)
    (under_append hin (cons_ne_nil _ _)) (under_append hin (cons_ne_nil _ _))
    fun m _ => under_append prefix_rfl (cons_ne_nil _ _)

theorem stateDir_names_ne_nil (s : StorageDir) (id : List Char) : (s.stateDir id).names ≠ [] := by
  obtain ⟨last, ⟨-, -, hnames⟩, -⟩ := s.home_spec id
  rw [hnames]
  exact fun h => absurd (append_eq_nil_iff.mp h).2 (cons_ne_nil _ _)

/-- The guard lets through exactly what leads on from the state directory. -/
theorem isSafe_iff (s : StorageDir) (id : List Char) (dest : LexPath) :
    isSafe (s.stateDir id) dest = true ↔ ∃ rest, rest ≠ [] ∧ (s.stateDir id).Extends dest rest := by
  rw [isSafe, isPrefixOf_iff_prefix]
  exact hasPrefix_text_iff (s.stateDir_names_ne_nil id)

/-- A state file is written in the home of the ID, if the guard lets it through. -/
theorem writeFileFromTar_under {id : List Char} {dest : LexPath}
    (hin : s.Inside id) (h : isSafe (s.stateDir id) dest = true) (body : List Char) :
    WritesOnly s.Under (writeFileFromTar (dest.location s.cwd) body) := by
  obtain ⟨last, hstate, -⟩ := s.home_spec id
  obtain ⟨rest, hne, hext⟩ := (s.isSafe_iff id dest).mp h
  have hunder : s.Under (dest.location s.cwd) := by
    rw [(hstate.trans hext).location_eq]
    exact under_append hin (append_ne_nil_of_right_ne_nil _ hne)
  intro c hc q hq
  rcases mem_cons.mp hc with rfl | hc
  · cases hq
  · obtain rfl := mem_singleton.mp hc
    rw [mem_singleton.mp hq]
    exact hunder

/-- Whatever the entries are, the loop stays within the homes of the records it read. -/
theorem extractEntries_under (eof : Bool) (hin : ∀ id ∈ ids, s.Inside id.toList)
    (data : Option (StatefulCheckpoint Ops Blob)) (hdata : ∀ d ∈ data, d.id ∈ ids)
    {entries : List TarEntry} (hentries : (TarStream.mk entries eof).IdsIn codec ids) :
    WritesOnly s.Under (s.extractEntries codec eof data entries).1 ∧
    ∀ d, (s.extractEntries codec eof data entries).2 = some (some d) → d.id ∈ ids := by
  have hnone : WritesOnly s.Under ([] : List (Call (List Char))) ∧ ∀ d : StatefulCheckpoint Ops Blob,
      (none : Option (Option (StatefulCheckpoint Ops Blob))) = some (some d) → d.id ∈ ids :=
    ⟨FileTree.writesOnly_nil _, fun d hd => absurd hd (by simp)⟩
  induction entries generalizing data with
  | nil =>
    refine ⟨hnone.1, fun d hd => ?_⟩
    rw [extractEntries] at hd
    obtain ⟨-, hd⟩ := ite_none_right_eq_some.mp hd
    exact hdata d (some.inj hd)
  | cons e rest ih =>
    obtain ⟨he, hrest⟩ := forall_mem_cons.mp hentries
    rw [extractEntries]
    split
    · rename_i hname
      split
      · exact hnone
      · rename_i data' hdecode
        -- the record that replaces the one before is of the set too
        obtain ⟨-, hdecode⟩ := ite_none_right_eq_some.mp hdecode
        exact ih _ (fun d hd => by rw [← some.inj hd]; exact he hname data' hdecode) hrest
    · split
      · split
        · exact ih data hdata hrest
        · exact hnone
      · rename_i rel hrel
        split
        · exact hnone
        · rename_i d
          dsimp only
          split
          · rename_i hsafe
            have hfile := writeFileFromTar_under (hin d.id (hdata d rfl)) hsafe e.body
            split
            · obtain ⟨hcalls, hresult⟩ := ih (some d) hdata hrest
              exact ⟨hfile.append hcalls, hresult⟩
            · exact ⟨hfile, hnone.2⟩
          · exact hnone

theorem finishExtract_under {calls : List (Call (List Char))}
    {result : Option (Option (StatefulCheckpoint Ops Blob))} (hcalls : WritesOnly s.Under calls)
    (hresult : ∀ d, result = some (some d) → s.Inside d.id.toList) :
    WritesOnly s.Under (s.finishExtract codec (calls, result)).1 := by
  rw [finishExtract.eq_def]
  split
  · rename_i _ calls' data heq
    cases heq
    split
    · exact hcalls
    · rename_i save hsave
      have hin : s.Inside { data with status := .completed }.id.toList := hresult data rfl
      exact hcalls.append (saveLocked_under hin hsave)
  · rename_i heq
    cases heq
    exact hcalls

/-- Every file that extraction makes or overwrites is under the storage directory, if the homes of
    the IDs are. -/
theorem extractCheckpoint_under (hin : ∀ id ∈ ids, s.Inside id.toList) {archive : TarStream}
    (harchive : archive.IdsIn codec ids) : WritesOnly s.Under (s.extractCheckpoint codec archive).1 := by
  obtain ⟨hcalls, hresult⟩ := extractEntries_under archive.eof hin none
    (fun d hd => absurd hd (by simp)) harchive
  exact finishExtract_under hcalls fun d hd => hin d.id (hresult d hd)

/-! ## IDs whose home is elsewhere -/

theorem tarStream_idsIn {files : List TarEntry} (hid : data.id ∈ ids)
    (hfiles : ∀ e ∈ files, e.name ≠ archiveMetaName) :
    (tarStream codec data files).IdsIn codec ids := by
  intro e he hname data' hdata'
  rcases mem_cons.mp he with rfl | he
  · rw [codec.decode_encode] at hdata'
    rw [← some.inj hdata']
    exact hid
  · exact absurd hname (hfiles e he)

/-- The record of an ID, with nothing in it. -/
def bareRecord (id : String) : StatefulCheckpoint Ops Blob := ⟨id, none, none, .completed, ""⟩

/-- Without state files, extraction starts with the temporary file of the record. -/
theorem extractCheckpoint_record (codec : RecordCodec Ops Blob)
    (hdir : s.dir ≠ []) (id : String) {home : List (List Char)} {n : List Char}
    (hrecord : (s.recordPath id.toList).location s.cwd = home ++ [n]) :
    ∃ cs, (s.extractCheckpoint codec (tarStream codec (bareRecord id) [])).1 =
      [.mkdirAll s.root, .write (home ++ [n ++ ".tmp".toList]) (codec.encode (bareRecord id))] ++
        cs := by
  have hsave := saveLocked_completed s codec (bareRecord id) hdir rfl
  rw [show (bareRecord id : StatefulCheckpoint Ops Blob).id = id from rfl, hrecord] at hsave
  rw [extractCheckpoint_tarStream, extractEntries, if_pos rfl, finishExtract,
    show { (bareRecord id : StatefulCheckpoint Ops Blob) with status := .completed } =
      bareRecord id from rfl, hsave]
  refine ⟨.rename (home ++ [n ++ ".tmp".toList]) (home ++ [n]) ::
    (writeFileSync (s.latestPath.location s.cwd) id.toList ++
      writeFileSync (s.latestCompletedPath.location s.cwd) id.toList), ?_⟩
  simp [writeFileSync, bareRecord, CheckpointData.stateDirs]

/-- A state file is written before the record is saved. -/
theorem extractCheckpoint_file (s : StorageDir) (codec : RecordCodec Ops Blob) (id : String) :
    ∃ cs, (s.extractCheckpoint codec (tarStream codec (bareRecord id)
        [⟨archiveStateRoot ++ ['a'], [], true⟩])).1 =
      [.mkdirAll ((s.stateDir id.toList).location s.cwd),
        .write ((s.stateDir id.toList).location s.cwd ++ [['a']]) []] ++ cs := by
  have hext : (s.stateDir id.toList).Extends ((s.stateDir id.toList).append ['a']) [['a']] :=
    (s.stateDir id.toList).append_name (by decide)
  have hsafe := (s.isSafe_iff id.toList _).mpr ⟨_, cons_ne_nil _ _, hext⟩
  rw [extractCheckpoint_tarStream, extractEntries_file s codec (bareRecord id) ['a'] [] [] hsafe,
    extractEntries, if_pos rfl, show (bareRecord id : StatefulCheckpoint Ops Blob).id = id from rfl,
    hext.location_eq, writeFileFromTar, dropLast_concat, append_nil, finishExtract]
  split
  · exact ⟨[], (append_nil _).symm⟩
  · exact ⟨_, rfl⟩

/-- If the home of an ID is not in the storage directory, the record or a state file with this ID is
    written elsewhere. -/
theorem leaves_outside (codec : RecordCodec Ops Blob) (hdir : s.dir ≠ [])
    {id : String} (hout : ¬ s.Inside id.toList) : ∃ files : List TarEntry,
    (∀ e ∈ files, e.name ≠ archiveMetaName) ∧ ∃ t q,
      FileTree.Leaves .empty (s.extractCheckpoint codec (tarStream codec (bareRecord id) files)).1 t ∧
      ¬ s.Under q ∧ t.lookup q ≠ none := by
  obtain ⟨last, hstate, hrecord⟩ := s.home_spec id.toList
  have hstate := hstate.location_eq s.cwd
  have hrecord := hrecord.location_eq s.cwd
  rw [Inside] at hout
  generalize (s.home id.toList).location s.cwd = home at hout hstate hrecord
  by_cases hroot : s.root = home ++ [last ++ ".state".toList]
  · -- state files are in the storage directory then, but the record is not
    obtain ⟨cs, hcalls⟩ := extractCheckpoint_record codec hdir id hrecord
    have hname : ¬ home ++ [last ++ ".json".toList ++ ".tmp".toList] <+: s.root := by
      rw [hroot, prefix_append_right_inj, append_assoc]
      intro h
      have heq := append_cancel_left (cons_prefix_cons.mp h).1
      simp at heq
    obtain ⟨t, hleaves, hlookup⟩ := FileTree.leaves_write_empty
      (codec.encode (bareRecord id)) ⟨_, hroot.symm⟩ hname cs
    refine ⟨[], fun e he => absurd he not_mem_nil, t,
      home ++ [last ++ ".json".toList ++ ".tmp".toList], ?_, not_under_concat hout _, ?_⟩
    · rw [hcalls]
      exact hleaves
    · rw [hlookup]
      exact some_ne_none _
  · obtain ⟨cs, hcalls⟩ := s.extractCheckpoint_file codec id
    have hout' : ¬ s.root <+: (s.stateDir id.toList).location s.cwd := by
      rw [hstate, prefix_concat_iff, not_or]
      exact ⟨hroot, hout⟩
    have hname : ¬ (s.stateDir id.toList).location s.cwd ++ [['a']] <+:
        (s.stateDir id.toList).location s.cwd := by
      intro h
      have hlen := h.length_le
      rw [length_append, length_singleton] at hlen
      omega
    obtain ⟨t, hleaves, hlookup⟩ := FileTree.leaves_write_empty [] prefix_rfl hname cs
    refine ⟨[⟨archiveStateRoot ++ ['a'], [], true⟩], ?_, t,
      (s.stateDir id.toList).location s.cwd ++ [['a']], ?_, not_under_concat hout' _, ?_⟩
    · exact forall_mem_singleton.mpr (archiveStateRoot_append_ne ['a'])
    · rw [hcalls]
      exact hleaves
    · rw [hlookup]
      exact some_ne_none _

/-- Extracting any archive, with any entries in any order, up to any failure, writes files under the
    storage directory only, if the IDs in its records have their homes there. No weaker condition on
    the IDs will do: for any other ID there is an archive with this ID that leaves a file behind
    elsewhere. -/
theorem extractCheckpoint_stays_inside (s : StorageDir) (codec : RecordCodec Ops Blob)
    (ids : Set String) :
    ((∀ id ∈ ids, s.Inside id.toList) → ∀ archive : TarStream, archive.IdsIn codec ids →
      FileTree.WritesOnly s.Under (s.extractCheckpoint codec archive).1) ∧
    (s.dir ≠ [] → ((∀ id ∈ ids, s.Inside id.toList) ↔
      ∀ archive : TarStream, archive.IdsIn codec ids → ∀ t t' : FileTree (List Char),
        t.Leaves (s.extractCheckpoint codec archive).1 t' → ∀ q, ¬ s.Under q →
          t'.lookup q = t.lookup q)) := by
  refine ⟨fun hin archive => extractCheckpoint_under hin, fun hdir => ⟨?_, ?_⟩⟩
  · intro hin archive harchive t t' hleaves q hq
    exact hleaves.lookup_eq (extractCheckpoint_under hin harchive) hq
  · intro hall id hid
    by_contra hout
    obtain ⟨files, hfiles, t, q, hleaves, hq, hlookup⟩ := leaves_outside codec hdir hout
    have hids : (bareRecord id : StatefulCheckpoint Ops Blob).id ∈ ids := hid
    exact hlookup (hall _ (tarStream_idsIn hids hfiles) _ t hleaves q hq)

/-- A record whose ID has `..` in it is saved next to the storage directory. -/
theorem extractCheckpoint_escapes :
    let s : StorageDir := ⟨[], "/data/ckpt".toList⟩
    let archive := tarStream .unit (bareRecord "/../../x") []
    let outside := ["data".toList, "x.json".toList]
    (s.extractCheckpoint .unit archive).2 = some "/../../x" ∧
    ((FileTree.empty.calls (s.extractCheckpoint .unit archive).1).map fun t => t.lookup outside) =
      some (some (RecordCodec.unit.encode (bareRecord "/../../x"))) ∧
    ¬ s.Under outside := by
  intro s archive outside
  have hcalls : s.extractCheckpoint .unit archive =
      s.finishExtract .unit ([], some (some (bareRecord "/../../x"))) := by
    rw [extractCheckpoint_tarStream, extractEntries, if_pos rfl]
  refine ⟨?_, ?_, by decide⟩
  · rw [hcalls]
    rfl
  · rw [hcalls]
    rfl

end StorageDir

end Weibo
