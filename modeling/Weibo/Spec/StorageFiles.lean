import Weibo.Spec.ArchiveInside

/-!
# The files of a checkpoint storage

`FileStorage` was modelled by its records and pointers alone. Here a save on the level of files is
shown to do what that model says, for IDs that are parts of file names: the record, `latest.json`
and `latest-completed.json` are three files of the storage directory, and so are the temporary files
they are replaced by.

## Key results

- `view_save`: the files after a save hold what the abstract storage holds after it
- `calls_saveLocked`: a save of a completed record succeeds if its state directories
  exist and nothing is in its way
-/

namespace Weibo

open List Option FileTree

variable {Ops Blob : Type} {t t' : FileTree (List Char)} {cs : List (FileTree.Call (List Char))}
  {d : List (List Char)} {id : String} {s : StorageDir}

namespace StorageDir

/-- An ID that is part of a file name. -/
def PlainId (id : String) : Prop := '/' ∉ id.toList

instance (id : String) : Decidable (PlainId id) := inferInstanceAs (Decidable (¬ _))

/-! ## File names -/

def recordName (id : String) : List Char := "checkpoint-".toList ++ id.toList ++ ".json".toList

def stateName (id : String) : List Char := "checkpoint-".toList ++ id.toList ++ ".state".toList

theorem recordName_head (id : String) : (recordName id).head? = some 'c' := by
  unfold recordName
  simp

theorem stateName_head (id : String) : (stateName id).head? = some 'c' := by
  unfold stateName
  simp

theorem recordName_inj {id' : String} (h : recordName id = recordName id') : id = id' := by
  unfold recordName at h
  rw [append_cancel_right_eq, append_cancel_left_eq] at h
  exact String.toList_inj.mp h

/-- Names with different last letters. -/
theorem append_ne_append {l l' u u' : List Char} {c c' : Char} (hu : u.getLast? = some c)
    (hu' : u'.getLast? = some c') (hne : c ≠ c') : l ++ u ≠ l' ++ u' := by
  intro h
  have hlast := congrArg getLast? h
  rw [getLast?_append, getLast?_append, hu, hu', some_or, some_or] at hlast
  exact hne (some.inj hlast)

theorem recordName_ne_tmp (id : String) (n : List Char) : recordName id ≠ n ++ ".tmp".toList :=
  append_ne_append (by decide) (by decide) (show 'n' ≠ 'p' by decide)

theorem recordName_ne_stateName (id id' : String) : recordName id ≠ stateName id' :=
  append_ne_append (by decide) (by decide) (show 'n' ≠ 'e' by decide)

theorem stateName_ne_tmp (id : String) (n : List Char) : stateName id ≠ n ++ ".tmp".toList :=
  append_ne_append (by decide) (by decide) (show 'e' ≠ 'p' by decide)

/-- A name that starts with another letter. -/
theorem ne_of_head {n n' : List Char} {c c' : Char} (hn : n.head? = some c)
    (hn' : n'.head? = some c') (hne : c ≠ c') : n ≠ n' := by
  rintro rfl
  rw [hn] at hn'
  exact hne (some.inj hn')

theorem isName_checkpoint (hid : PlainId id) {u : List Char} (hu : '/' ∉ u) (hlen : 2 < u.length) : IsName ("checkpoint-".toList ++ id.toList ++ u) := by
  refine LexPath.isName_append ?_ hu hlen
  rw [List.mem_append, not_or]
  exact ⟨by decide, hid⟩

theorem stateDir_location (s : StorageDir) (hid : PlainId id) :
    (s.stateDir id.toList).location s.cwd = s.root ++ [stateName id] := by
  rw [stateDir, LexPath.join_eq s.dir (by simp)]
  exact ((LexPath.clean s.dir).append_name
    (isName_checkpoint hid (by decide) (by decide))).location_eq s.cwd

theorem recordPath_location (s : StorageDir) (hid : PlainId id) :
    (s.recordPath id.toList).location s.cwd = s.root ++ [recordName id] := by
  rw [recordPath, LexPath.join_eq s.dir (by simp)]
  exact ((LexPath.clean s.dir).append_name
    (isName_checkpoint hid (by decide) (by decide))).location_eq s.cwd

/-! ## Replacing a file -/

theorem writeFileSync_eq (d : List (List Char)) (n b : List Char) :
    writeFileSync (d ++ [n]) b =
      [.write (d ++ [n ++ ".tmp".toList]) b, .rename (d ++ [n ++ ".tmp".toList]) (d ++ [n])] := by
  rw [writeFileSync, dropLast_concat, getLast?_concat, getD_some]

/-- A file of a directory can be replaced unless it is a directory itself, and all directories
    stay. -/
theorem calls_writeFileSync {dirName : List Char} (hd : t.isDir d = true)
    (hfree : ∀ n, n ≠ dirName → t.isDir (d ++ [n]) = false) {n : List Char} (hn : n ≠ dirName)
    (htmp : n ++ ".tmp".toList ≠ dirName) (b : List Char) :
    ∃ t', t.calls (writeFileSync (d ++ [n]) b) = some t' ∧ ∀ q, t'.isDir q = t.isDir q := by
  rw [writeFileSync_eq]
  exact ⟨_, calls_replace b hd (hfree n hn) (hfree _ htmp), fun _ => rfl⟩

theorem lookup_writeFileSync_self
    {n b : List Char} (h : t.calls (writeFileSync (d ++ [n]) b) = some t') :
    t'.lookup (d ++ [n]) = some b := by
  rw [writeFileSync_eq] at h
  rw [eq_replace h]
  exact lookup_replace_self _ _ _ _

/-- Other files of the directory are left alone. -/
theorem lookup_writeFileSync_ne
    {n m b : List Char} (h : t.calls (writeFileSync (d ++ [n]) b) = some t') (hn : m ≠ n)
    (htmp : m ≠ n ++ ".tmp".toList) : t'.lookup (d ++ [m]) = t.lookup (d ++ [m]) := by
  have hne : ∀ n', m ≠ n' → d ++ [n'] ≠ d ++ [m] := fun n' hm heq =>
    hm (cons.inj (append_cancel_left heq)).1.symm
  have hwrites : WritesOnly (· ≠ d ++ [m]) (writeFileSync (d ++ [n]) b) := by
    refine writeFileSync_writesOnly ?_ ?_ b
    · exact hne n hn
    · exact hne _ htmp
  exact lookup_calls h hwrites (not_not_intro rfl)

/-! ## Saving -/

/-- What the three writes of a save leave in the record and pointer files, after calls that write
    nothing. -/
theorem lookup_save {b i : List Char} {completed : Prop}
    [Decidable completed] (hcs : WritesOnly (fun _ => False) cs)
    (h : t.calls (cs ++ writeFileSync (d ++ [recordName id]) b ++
      writeFileSync (d ++ ["latest.json".toList]) i ++
      if completed then writeFileSync (d ++ ["latest-completed.json".toList]) i else []) =
        some t') :
    t'.lookup (d ++ [recordName id]) = some b ∧
    t'.lookup (d ++ ["latest.json".toList]) = some i ∧
    t'.lookup (d ++ ["latest-completed.json".toList]) =
      (if completed then some i else t.lookup (d ++ ["latest-completed.json".toList])) ∧
    ∀ id', id' ≠ id → t'.lookup (d ++ [recordName id']) = t.lookup (d ++ [recordName id']) := by
  rw [calls_append, calls_append, calls_append] at h
  obtain ⟨t₃, h, hcompleted⟩ := bind_eq_some_iff.mp h
  obtain ⟨t₂, h, hlatest⟩ := bind_eq_some_iff.mp h
  obtain ⟨t₁, h, hrecord⟩ := bind_eq_some_iff.mp h
  have h₁ : ∀ q, t₁.lookup q = t.lookup q := fun q => lookup_calls h hcs not_false
  -- the pointers are not records
  have hpointer : ∀ id' n, n.head? = some 'l' → recordName id' ≠ n := fun id' n hn =>
    ne_of_head (recordName_head id') hn (by decide)
  have h₃ : ∀ id', t₃.lookup (d ++ [recordName id']) = t₂.lookup (d ++ [recordName id']) :=
    fun id' => lookup_writeFileSync_ne hlatest (hpointer id' _ (by decide))
      (recordName_ne_tmp id' _)
  have hlatest₃ := lookup_writeFileSync_self hlatest
  have hcompleted₃ : t₃.lookup (d ++ ["latest-completed.json".toList]) =
      t.lookup (d ++ ["latest-completed.json".toList]) := by
    have htmp : (recordName id ++ ".tmp".toList).head? = some 'c' := by
      rw [head?_append, recordName_head, some_or]
    rw [lookup_writeFileSync_ne hlatest (by decide) (by decide),
      lookup_writeFileSync_ne hrecord (hpointer id _ (by decide)).symm, h₁]
    exact ne_of_head (show _ = some 'l' by decide) htmp (by decide)
  have h' : (∀ id', t'.lookup (d ++ [recordName id']) = t₃.lookup (d ++ [recordName id'])) ∧
      t'.lookup (d ++ ["latest.json".toList]) = t₃.lookup (d ++ ["latest.json".toList]) ∧
      t'.lookup (d ++ ["latest-completed.json".toList]) =
        if completed then some i else t₃.lookup (d ++ ["latest-completed.json".toList]) := by
    split_ifs at hcompleted ⊢
    · exact ⟨fun id' => lookup_writeFileSync_ne hcompleted (hpointer id' _ (by decide))
        (recordName_ne_tmp id' _), lookup_writeFileSync_ne hcompleted (by decide) (by decide),
        lookup_writeFileSync_self hcompleted⟩
    · cases hcompleted
      exact ⟨fun _ => rfl, rfl, rfl⟩
  refine ⟨?_, ?_, ?_, fun id' hne => ?_⟩
  · rw [h'.1, h₃, lookup_writeFileSync_self hrecord]
  · rw [h'.2.1, hlatest₃]
  · rw [h'.2.2, hcompleted₃]
  · rw [h'.1, h₃, lookup_writeFileSync_ne hrecord (fun heq => hne (recordName_inj heq))
      (recordName_ne_tmp id' _), h₁]

/-- The files after a save hold what the abstract storage holds after it. -/
theorem view_save {codec : RecordCodec Ops Blob} {data : StatefulCheckpoint Ops Blob}
    (hid : PlainId data.id) (hsave : s.saveLocked codec data = some cs) (h : t.calls cs = some t') :
    (s.view codec t').latest = ((s.view codec t).save data).latest ∧
    (s.view codec t').latestCompleted = ((s.view codec t).save data).latestCompleted ∧
    ∀ id, PlainId id →
      (s.view codec t').checkpoints id = ((s.view codec t).save data).checkpoints id := by
  rw [saveLocked] at hsave
  split at hsave <;> cases hsave
  rw [FileStorage.save, FileStorage.saveLocked]
  have hid' : (if data.status = .unset then { data with status := .completed } else data).id =
      data.id := by
    split <;> rfl
  generalize (if data.status = .unset then { data with status := .completed } else data) = data'
    at hid' h ⊢
  rw [← hid'] at hid
  rw [s.recordPath_location hid, latestPath_location, latestCompletedPath_location] at h
  obtain ⟨hrecord, hlatest, hcompleted, hother⟩ :=
    lookup_save (mkdirAll_sync_writesOnly _ _ _ _) h
  have hview : ∀ id, PlainId id → (s.view codec t').checkpoints id =
      Function.update (s.view codec t).checkpoints data'.id (some data') id := by
    intro id hplain
    show (t'.lookup ((s.recordPath id.toList).location s.cwd)).bind codec.decode = _
    rw [s.recordPath_location hplain]
    by_cases heq : id = data'.id
    · rw [heq, Function.update_self, hrecord, bind_some, codec.decode_encode]
    · rw [Function.update_of_ne heq, hother id heq, ← s.recordPath_location hplain]
      rfl
  have hlatest' : (s.view codec t').latest = some data'.id := by
    show (t'.lookup (s.latestPath.location s.cwd)).map String.ofList = _
    rw [latestPath_location, hlatest, map_some, String.ofList_toList]
  have hcompleted' : (s.view codec t').latestCompleted =
      if data'.status = .completed then some data'.id else (s.view codec t).latestCompleted := by
    show (t'.lookup (s.latestCompletedPath.location s.cwd)).map String.ofList = _
    rw [latestCompletedPath_location, hcompleted]
    split
    · rw [map_some, String.ofList_toList]
    · rw [← latestCompletedPath_location]
      rfl
  rw [hlatest', hcompleted']
  split
  · exact ⟨rfl, rfl, hview⟩
  · exact ⟨rfl, rfl, hview⟩

/-- A completed record that was saved is read back. -/
theorem load_save {codec : RecordCodec Ops Blob} {data : StatefulCheckpoint Ops Blob}
    (hid : PlainId data.id) (hstatus : data.status = .completed)
    (hsave : s.saveLocked codec data = some cs) (h : t.calls cs = some t') :
    (s.view codec t').load = some data ∧ (s.view codec t').loadLatestCompleted = some data := by
  obtain ⟨hlatest, hcompleted, hrecord⟩ := view_save hid hsave h
  have hsaved : (s.view codec t).save data =
      ⟨Function.update (s.view codec t).checkpoints data.id (some data), some data.id,
        some data.id⟩ := by
    simp [FileStorage.save, FileStorage.saveLocked, FileStorage.writeFileSync, hstatus]
  have hspecific : (s.view codec t').loadSpecific data.id = some data := by
    rw [FileStorage.loadSpecific, hrecord _ hid, hsaved]
    exact Function.update_self ..
  rw [hsaved] at hlatest hcompleted
  constructor
  · rw [FileStorage.load, hlatest, bind_some, hspecific]
  · rw [FileStorage.loadLatestCompleted, hcompleted]
    exact hspecific

/-- A save of a completed record succeeds if no file is above the storage directory, its state
    directories exist, and there is no other directory in it. -/
theorem calls_saveLocked (codec : RecordCodec Ops Blob)
    (data : StatefulCheckpoint Ops Blob) (hdir : s.dir ≠ []) (hstatus : data.status = .completed)
    (hid : PlainId data.id) (habove : ∀ q, q <+: s.root → t.lookup q = none)
    (hsync : ∀ rel ∈ data.stateDirs,
      t.isDir (((s.stateDir data.id.toList).append rel).location s.cwd) = true)
    (hfree : ∀ n, n ≠ stateName data.id → t.isDir (s.root ++ [n]) = false) :
    ∃ cs t', s.saveLocked codec data = some cs ∧ t.calls cs = some t' := by
  have hroot : (t.makeDirs s.root).isDir s.root = true :=
    isDir_makeDirs.mpr (Or.inl prefix_rfl)
  have hfree' : ∀ n, n ≠ stateName data.id → (t.makeDirs s.root).isDir (s.root ++ [n]) = false := by
    intro n hn
    rw [← Bool.not_eq_true, isDir_makeDirs, hfree n hn, not_or]
    refine ⟨fun hpre => ?_, Bool.false_ne_true⟩
    have hlen := hpre.length_le
    rw [length_append, length_singleton] at hlen
    omega
  have hpointer : ∀ n, n.head? = some 'l' → n ≠ stateName data.id := fun n hn =>
    ne_of_head hn (stateName_head data.id) (by decide)
  -- the directories stay as they are from here on
  have hmkdir := call_mkdirAll habove
  have hsyncs : (t.makeDirs s.root).calls (data.stateDirs.map fun rel =>
      .sync (((s.stateDir data.id.toList).append rel).location s.cwd)) =
        some (t.makeDirs s.root) :=
    calls_sync fun rel hrel => isDir_makeDirs.mpr (Or.inr (hsync rel hrel))
  obtain ⟨t₁, h₁, hdirs₁⟩ := calls_writeFileSync hroot hfree' (recordName_ne_stateName _ _)
    (stateName_ne_tmp _ _).symm (codec.encode data)
  obtain ⟨t₂, h₂, hdirs₂⟩ := calls_writeFileSync ((hdirs₁ _).trans hroot)
    (fun n hn => (hdirs₁ _).trans (hfree' n hn)) (hpointer "latest.json".toList (by decide))
    (hpointer _ (by decide)) data.id.toList
  obtain ⟨t₃, h₃, -⟩ := calls_writeFileSync ((hdirs₂ _).trans ((hdirs₁ _).trans hroot))
    (fun n hn => (hdirs₂ _).trans ((hdirs₁ _).trans (hfree' n hn)))
    (hpointer "latest-completed.json".toList (by decide)) (hpointer _ (by decide)) data.id.toList
  refine ⟨_, t₃, saveLocked_completed s codec data hdir hstatus, ?_⟩
  rw [s.recordPath_location hid, latestPath_location, latestCompletedPath_location,
    calls_append, calls_append, calls_append, calls_cons,
    hmkdir, bind_some, hsyncs, bind_some, h₁, bind_some, h₂, bind_some, h₃]

end StorageDir

end Weibo
