import Weibo.ForStd.Run
import Weibo.Model.Recovery

/-!
# Crash safety of the checkpoint directory

Recovery should select the checkpoint of the most recently committed transaction, wherever a crash
has cut a save or a promotion. It does not always: a promotion that crashes before its last rename
leaves `latest-completed.json` behind, recovery then takes the shortcut for a completed
`latest.json` and repairs nothing, and the next save points `latest.json` at a prepared checkpoint.
If that one never commits, recovery falls back too far (`recovery_falls_back_too_far`).

`recovery_selects_iff_synced` says exactly when this does not happen.
-/

namespace Weibo

open Function List Option FileStorage

namespace DirectoryRun

variable {Snap Blob : Type} {s s' : DirectoryRun Snap Blob} {d : CheckpointData Snap Blob}

/-! ## What recovery selects -/

theorem resolve_completed (hload : s.fs.load = some d) (hcomp : d.completed = true) : s.resolve = .ok (some d, []) := by
  simp [resolve, resolveCoordinatedRecovery, hload, hcomp]

theorem resolve_promoted (hload : s.fs.load = some d) (hprep : d.completed = false)
    (hmem : d.id ∈ s.committed) (hstored : s.fs.checkpoints d.id = some d) :
    s.resolve = .ok (some { d with status := .completed },
      saveLocked { d with status := .completed }) := by
  have hupd : s.fs.updateStatusLocked d.id .completed =
      some (saveLocked { d with status := .completed }) := by
    rw [updateStatusLocked, loadSpecific, hstored, map_some]
  have hcontains : s.committed.contains d.id = true := contains_iff_mem.mpr hmem
  simp only [resolve, resolveCoordinatedRecovery, hload, hprep, hcontains, hupd, if_true,
    Bool.false_eq_true, if_false]

theorem resolve_fallback (hload : s.fs.load = some d)
    (hprep : d.completed = false) (hmem : d.id ∉ s.committed) :
    s.resolve = .ok (s.fs.loadLatestCompleted, []) := by
  have hcontains : s.committed.contains d.id = false := by
    rw [← Bool.not_eq_true, contains_iff_mem]
    exact hmem
  simp only [resolve, resolveCoordinatedRecovery, hload, hprep, hcontains, Bool.false_eq_true,
    if_false]

/-- The claim about a state, once the decision is known. -/
theorem selects_iff {cp : Option (CheckpointData Snap Blob)} {ws : List (FileWrite Snap Blob)}
    (h : s.resolve = .ok (cp, ws)) :
    s.SelectsLastCommitted ↔ cp.map CheckpointData.id = s.committed.getLast? := by
  constructor
  · rintro ⟨cp', ws', h', heq⟩
    rw [h] at h'
    obtain ⟨rfl, rfl⟩ := Prod.mk.inj (Except.ok.inj h')
    exact heq
  · intro heq
    exact ⟨cp, ws, h, heq⟩

/-! ## The invariant -/

/-- What is left to write in each phase, and what the files already say. -/
def PhaseOk (fs : FileStorage Snap Blob) (committed issued : List String) :
    DirectoryPc Snap Blob → Prop
  | .down | .idle => True
  | .prepared id => fs.latest = some id ∧ id ∉ committed ∧ id ∈ issued ∧
      ∃ d, fs.checkpoints id = some d ∧ d.status = .prepared
  | .committed id => fs.latest = some id ∧ committed.getLast? = some id
  | .writing ws next =>
    -- inside the save of a prepared checkpoint
    (∃ d, d.status = .prepared ∧ d.id ∉ committed ∧ d.id ∈ issued ∧ next = .prepared d.id ∧
      ((ws = [.checkpoint d, .latest d.id] ∧ fs.checkpoints d.id = none) ∨
        (ws = [.latest d.id] ∧ fs.checkpoints d.id = some d) ∨
        (ws = [] ∧ fs.checkpoints d.id = some d ∧ fs.latest = some d.id))) ∨
    -- inside a promotion
    (next = .idle ∧ (ws = [] ∨
      ∃ d, d.status = .completed ∧ fs.latest = some d.id ∧ committed.getLast? = some d.id ∧
        (ws = [.checkpoint d, .latest d.id, .latestCompleted d.id] ∨
          (fs.checkpoints d.id = some d ∧
            (ws = [.latest d.id, .latestCompleted d.id] ∨ ws = [.latestCompleted d.id])))))

structure Inv (s : DirectoryRun Snap Blob) : Prop where
  stored : ∀ id d, s.fs.checkpoints id = some d → d.id = id ∧ id ∈ s.issued
  known : ∀ id ∈ s.committed, id ∈ s.issued
  latest : ∀ id, s.fs.latest = some id → (s.fs.checkpoints id).isSome
  completed : ∀ id, s.fs.latestCompleted = some id → (s.fs.checkpoints id).isSome
  phase : PhaseOk s.fs s.committed s.issued s.pc

theorem inv_initial : Inv (initial : DirectoryRun Snap Blob) where
  stored id d hd := absurd hd (by simp [initial, empty])
  known id hid := absurd hid (by simp [initial])
  latest id hid := absurd hid (by simp [initial, empty])
  completed id hid := absurd hid (by simp [initial, empty])
  phase := trivial

/-- A pointer file may name any checkpoint that is stored. -/
theorem named_stored {fs : FileStorage Snap Blob} (hstored : fs.checkpoints d.id = some d) :
    ∀ id, some d.id = some id → (fs.checkpoints id).isSome := by
  intro id hid
  cases hid
  rw [hstored]
  rfl

/-- The newest checkpoint is stored under the name in `latest.json`. -/
theorem Inv.load_some (h : Inv s) (hload : s.fs.load = some d) :
    s.fs.latest = some d.id ∧ s.fs.checkpoints d.id = some d := by
  obtain ⟨id, hid, hd⟩ := bind_eq_some_iff.mp hload
  obtain ⟨rfl, -⟩ := h.stored id d hd
  exact ⟨hid, hd⟩

/-- With a prepared newest checkpoint, the fallback is what `latest-completed.json` names. -/
theorem Inv.fallback_id (h : Inv s) (hload : s.fs.load = some d) (hprep : d.completed = false) :
    s.fs.loadLatestCompleted.map CheckpointData.id = s.fs.latestCompleted := by
  unfold loadLatestCompleted
  cases hc : s.fs.latestCompleted with
  | none => simp [hload, hprep]
  | some id =>
    obtain ⟨d', hd'⟩ := isSome_iff_exists.mp (h.completed id hc)
    show (s.fs.checkpoints id).map CheckpointData.id = some id
    rw [hd', map_some, (h.stored id d' hd').1]

/-- If the newest checkpoint is the last committed one, recovery selects it, promoted or not. -/
theorem selects_of_newest {id : String}
    (hlatest : s.fs.latest = some id) (hstored : s.fs.checkpoints id = some d) (hid : d.id = id)
    (hlast : s.committed.getLast? = some id) : s.SelectsLastCommitted := by
  subst hid
  have hload : s.fs.load = some d := by
    rw [load, hlatest]
    exact hstored
  by_cases hcomp : d.completed = true
  · rw [selects_iff (resolve_completed hload hcomp)]
    exact hlast.symm
  · have hprep : d.completed = false := by simpa using hcomp
    rw [selects_iff (resolve_promoted hload hprep (mem_of_getLast? hlast) hstored)]
    exact hlast.symm

/-- Writing the file of a new checkpoint changes nothing recovery reads. -/
theorem selects_write_new (h : Inv s)
    (hnew : s.fs.checkpoints d.id = none) (pc : DirectoryPc Snap Blob) :
    SelectsLastCommitted { s with fs := s.fs.writeFileSync (.checkpoint d), pc := pc } ↔
      s.SelectsLastCommitted := by
  -- the pointers name other checkpoints
  have hsame : ∀ id, (s.fs.checkpoints id).isSome →
      (s.fs.writeFileSync (.checkpoint d)).checkpoints id = s.fs.checkpoints id := by
    intro id hid
    have hne : id ≠ d.id := by
      rintro rfl
      rw [hnew] at hid
      simp at hid
    exact update_of_ne hne _ _
  have hload : (s.fs.writeFileSync (.checkpoint d)).load = s.fs.load := by
    show s.fs.latest.bind _ = s.fs.latest.bind _
    cases hl : s.fs.latest with
    | none => rfl
    | some id => exact hsame id (h.latest id hl)
  have hcompleted : (s.fs.writeFileSync (.checkpoint d)).loadLatestCompleted =
      s.fs.loadLatestCompleted := by
    unfold loadLatestCompleted
    have hpointer : (s.fs.writeFileSync (.checkpoint d)).latestCompleted = s.fs.latestCompleted :=
      rfl
    rw [hload, hpointer]
    cases hc : s.fs.latestCompleted with
    | none => rfl
    | some id => exact hsame id (h.completed id hc)
  have hresolve : resolve { s with fs := s.fs.writeFileSync (.checkpoint d), pc := pc } =
      s.resolve := by
    unfold resolve resolveCoordinatedRecovery
    rw [hload, hcompleted]
    cases hl : s.fs.load with
    | none => rfl
    | some latest =>
      have hupd : (s.fs.writeFileSync (.checkpoint d)).updateStatusLocked latest.id .completed =
          s.fs.updateStatusLocked latest.id .completed := by
        unfold updateStatusLocked loadSpecific
        rw [hsame latest.id (by rw [(h.load_some hl).2]; rfl)]
      simp only [hupd]
  unfold SelectsLastCommitted
  rw [hresolve]

/-- Renaming `latest.json` to a prepared checkpoint makes recovery depend on
    `latest-completed.json`. -/
theorem selects_write_latest (h : Inv s) (hstored : s.fs.checkpoints d.id = some d)
    (hstatus : d.status = .prepared) (hmem : d.id ∉ s.committed) (pc : DirectoryPc Snap Blob) :
    SelectsLastCommitted { s with fs := s.fs.writeFileSync (.latest d.id), pc := pc } ↔
      s.fs.latestCompleted = s.committed.getLast? := by
  set s₁ : DirectoryRun Snap Blob :=
    { s with fs := s.fs.writeFileSync (.latest d.id), pc := .idle } with hs₁
  have hprep : d.completed = false := completed_of_prepared hstatus
  have hload : s₁.fs.load = some d := hstored
  have hinv : Inv s₁ := ⟨h.stored, h.known, named_stored hstored, h.completed, trivial⟩
  have hfallback := hinv.fallback_id hload hprep
  have hresolve : s₁.resolve = .ok (s₁.fs.loadLatestCompleted, []) :=
    resolve_fallback hload hprep hmem
  show SelectsLastCommitted s₁ ↔ _
  rw [selects_iff hresolve, hfallback]
  rfl

/-! ## Steps -/

theorem selects_write {w : FileWrite Snap Blob} {ws : List (FileWrite Snap Blob)}
    {next : DirectoryPc Snap Blob} (h : Inv s) (hP : s.SelectsLastCommitted)
    (hpc : s.pc = .writing (w :: ws) next) :
    SelectsLastCommitted { s with fs := s.fs.writeFileSync w, pc := .writing ws next } ↔
      Synced s .write := by
  have hphase := h.phase
  rw [hpc] at hphase
  simp only [Synced, hpc]
  rcases hphase with ⟨d, hstatus, hmem, -, rfl, hws⟩ | ⟨rfl, hws⟩
  · rcases hws with ⟨hws, hnew⟩ | ⟨hws, hstored⟩ | ⟨hws, -⟩
    · cases hws
      rw [selects_write_new h hnew]
      simpa using hP
    · -- the one step that can go wrong
      cases hws
      exact selects_write_latest h hstored hstatus hmem _
    · simp at hws
  · -- inside a promotion the newest checkpoint stays the last committed one
    have htrue : ∀ {P : Prop}, P → (P ↔ True) := fun hp => iff_true_intro hp
    rcases hws with hws | ⟨d, -, hlatest, hlast, hws⟩
    · simp at hws
    · rcases hws with hws | ⟨hstored, hws | hws⟩ <;> cases hws
      · exact htrue (selects_of_newest hlatest (update_self ..) rfl hlast)
      · exact htrue (selects_of_newest rfl hstored rfl hlast)
      · exact htrue (selects_of_newest hlatest hstored rfl hlast)

theorem selects_step (e : Event Snap Blob) (h : Inv s) (hP : s.SelectsLastCommitted)
    (hs : step s e = some s') : s'.SelectsLastCommitted ↔ Synced s e := by
  revert hs
  fun_cases step s e <;> intro hs <;> try cases hs
  case case7.refl hpc => exact selects_write h hP hpc
  case case11.refl id hpc =>
    have hphase := h.phase
    rw [hpc] at hphase
    obtain ⟨hlatest, -, -, d, hstored, -⟩ := hphase
    -- the marker makes the newest checkpoint the last committed one
    refine iff_of_true (selects_of_newest hlatest hstored (h.stored id d hstored).1 ?_) trivial
    exact getLast?_concat
  case case13 =>
    obtain ⟨ws, -, rfl⟩ := map_eq_some_iff.mp hs
    exact iff_of_true hP trivial
  all_goals exact iff_of_true hP trivial

/-- Recovery writes nothing, or promotes the newest checkpoint. -/
theorem resolve_writes {cp : Option (CheckpointData Snap Blob)} {ws : List (FileWrite Snap Blob)}
    (h : Inv s) (hr : s.resolve = .ok (cp, ws)) :
    ws = [] ∨ ∃ d, s.fs.load = some d ∧ cp = some { d with status := .completed } ∧
      ws = saveLocked { d with status := .completed } := by
  cases hload : s.fs.load with
  | none =>
    rw [resolve, resolveCoordinatedRecovery, hload] at hr
    exact .inl (Prod.mk.inj (Except.ok.inj hr)).2.symm
  | some d =>
    by_cases hcomp : d.completed = true
    · rw [resolve_completed hload hcomp] at hr
      exact .inl (Prod.mk.inj (Except.ok.inj hr)).2.symm
    · have hprep : d.completed = false := by simpa using hcomp
      by_cases hmem : d.id ∈ s.committed
      · rw [resolve_promoted hload hprep hmem (h.load_some hload).2] at hr
        cases hr
        exact .inr ⟨d, rfl, rfl, rfl⟩
      · rw [resolve_fallback hload hprep hmem] at hr
        exact .inl (Prod.mk.inj (Except.ok.inj hr)).2.symm

/-- Writing a checkpoint file: what is stored stays stored under its own id. -/
theorem inv_writeFile (h : Inv s) (hd : d.id ∈ s.issued) {pc : DirectoryPc Snap Blob}
    (hpc : PhaseOk (s.fs.writeFileSync (.checkpoint d)) s.committed s.issued pc) :
    Inv { s with fs := s.fs.writeFileSync (.checkpoint d), pc := pc } := by
  have hkeep : ∀ id, (s.fs.checkpoints id).isSome →
      ((s.fs.writeFileSync (.checkpoint d)).checkpoints id).isSome := by
    intro id hid
    simp only [writeFileSync, update_apply]
    split
    · rfl
    · exact hid
  refine ⟨?_, h.known, fun id hid => hkeep id (h.latest id hid),
    fun id hid => hkeep id (h.completed id hid), hpc⟩
  intro id d' hd'
  simp only [writeFileSync, update_apply] at hd'
  split at hd'
  · rename_i heq
    cases hd'
    exact ⟨heq.symm, heq ▸ hd⟩
  · exact h.stored id d' hd'

theorem inv_write {w : FileWrite Snap Blob} {ws : List (FileWrite Snap Blob)}
    {next : DirectoryPc Snap Blob} (h : Inv s) (hpc : s.pc = .writing (w :: ws) next) :
    Inv { s with fs := s.fs.writeFileSync w, pc := .writing ws next } := by
  have hphase := h.phase
  rw [hpc] at hphase
  rcases hphase with ⟨d, hstatus, hmem, hissued, rfl, hws⟩ | ⟨rfl, hws⟩
  · rcases hws with ⟨hws, -⟩ | ⟨hws, hstored⟩ | ⟨hws, -⟩
    · cases hws
      apply inv_writeFile h hissued
      exact .inl ⟨d, hstatus, hmem, hissued, rfl, .inr (.inl ⟨rfl, update_self ..⟩)⟩
    · cases hws
      exact ⟨h.stored, h.known, named_stored hstored, h.completed,
        .inl ⟨d, hstatus, hmem, hissued, rfl, .inr (.inr ⟨rfl, hstored, rfl⟩)⟩⟩
    · simp at hws
  · -- the three renames of a promotion, one after the other
    rcases hws with hws | ⟨d, hstatus, hlatest, hlast, hws⟩
    · simp at hws
    have hissued : d.id ∈ s.issued := h.known d.id (mem_of_getLast? hlast)
    rcases hws with hws | ⟨hstored, hws | hws⟩ <;> cases hws
    · apply inv_writeFile h hissued
      exact .inr ⟨rfl, .inr ⟨d, hstatus, hlatest, hlast, .inr ⟨update_self .., .inl rfl⟩⟩⟩
    · exact ⟨h.stored, h.known, named_stored hstored, h.completed,
        .inr ⟨rfl, .inr ⟨d, hstatus, rfl, hlast, .inr ⟨hstored, .inr rfl⟩⟩⟩⟩
    · exact ⟨h.stored, h.known, h.latest, named_stored hstored, .inr ⟨rfl, .inl rfl⟩⟩

theorem inv_step (e : Event Snap Blob) (h : Inv s) (hP : s.SelectsLastCommitted)
    (hs : step s e = some s') : Inv s' := by
  have hphase := h.phase
  revert hs
  fun_cases step s e <;> intro hs <;> try cases hs
  case case1.refl => exact ⟨h.stored, h.known, h.latest, h.completed, trivial⟩
  case case2.refl hr _ =>
    refine ⟨h.stored, h.known, h.latest, h.completed, .inr ⟨rfl, ?_⟩⟩
    rcases resolve_writes h hr with rfl | ⟨d, hload, rfl, rfl⟩
    · exact .inl rfl
    · -- what is promoted is the last committed one, as the property holds here
      have hlast := (selects_iff hr).mp hP
      exact .inr ⟨{ d with status := .completed }, rfl, (h.load_some hload).1, hlast.symm, .inl rfl⟩
  case case5.refl data _ hcond =>
    obtain ⟨hnew, hstatus⟩ := not_or.mp hcond
    have hstatus : data.status = .prepared := not_not.mp hstatus
    refine ⟨fun id d hd => ⟨(h.stored id d hd).1, mem_cons_of_mem _ (h.stored id d hd).2⟩,
      fun id hid => mem_cons_of_mem _ (h.known id hid), h.latest, h.completed,
      .inl ⟨data, hstatus, fun hmem => hnew (h.known _ hmem), mem_cons_self, rfl, .inl ⟨?_, ?_⟩⟩⟩
    · simp [saveLocked, hstatus]
    · -- the id is new, so no file of that name exists
      by_contra hne
      obtain ⟨d, hd⟩ := ne_none_iff_exists'.mp hne
      exact hnew (h.stored _ d hd).2
  case case7.refl hpc => exact inv_write h hpc
  case case9.refl hpc =>
    rw [hpc] at hphase
    refine ⟨h.stored, h.known, h.latest, h.completed, ?_⟩
    rcases hphase with ⟨d, hstatus, hmem, hissued, rfl, hws⟩ | ⟨rfl, -⟩
    · rcases hws with ⟨hws, -⟩ | ⟨hws, -⟩ | ⟨-, hstored, hlatest⟩
      · simp at hws
      · simp at hws
      · exact ⟨hlatest, hmem, hissued, d, hstored, hstatus⟩
    · exact trivial
  case case11.refl hpc =>
    rw [hpc] at hphase
    obtain ⟨hlatest, -, hissued, -⟩ := hphase
    refine ⟨h.stored, ?_, h.latest, h.completed, hlatest, getLast?_concat⟩
    intro id' hid'
    rcases List.mem_append.mp hid' with hold | hnew
    · exact h.known id' hold
    · rw [mem_singleton.mp hnew]
      exact hissued
  case case13 id hpc =>
    obtain ⟨ws, hws, rfl⟩ := map_eq_some_iff.mp hs
    rw [hpc] at hphase
    obtain ⟨hlatest, hlast⟩ := hphase
    obtain ⟨d, hd⟩ := isSome_iff_exists.mp (h.latest id hlatest)
    obtain ⟨rfl, -⟩ := h.stored id d hd
    rw [updateStatusLocked, loadSpecific, hd, map_some] at hws
    cases hws
    exact ⟨h.stored, h.known, h.latest, h.completed,
      .inr ⟨rfl, .inr ⟨{ d with status := .completed }, rfl, hlatest, hlast, .inl rfl⟩⟩⟩

/-! ## Runs -/

/-- Recovery would select the last committed checkpoint in every state of a run exactly when no save
    renames `latest.json` while `latest-completed.json` is behind. -/
theorem recovery_selects_iff_synced (es : List (Event Snap Blob)) :
    Run.Always step SelectsLastCommitted initial es ↔ Run.Along step Synced initial es :=
  Run.always_iff_along (fun _ e _ hi hp hs _ => inv_step e hi hp hs)
    (fun _ e _ hi hp hs => selects_step e hi hp hs) inv_initial ⟨none, [], rfl, rfl⟩

/-- A prepared checkpoint without content. -/
def preparedCheckpoint (id : String) : CheckpointData ℕ ℕ := ⟨id, none, none, .prepared, "txn"⟩

/-- The first checkpoint commits, and the crash hits its promotion after the checkpoint file. The
    second run saves a checkpoint and crashes before its commit. -/
def promotionCutShort : List (Event ℕ ℕ) :=
  [.recover, .finish, .save (preparedCheckpoint "cp-1-1"), .write, .write, .finish, .commit,
    .promote, .write, .crash, .recover, .finish, .save (preparedCheckpoint "cp-2-1"), .write,
    .write, .crash]

/-- Recovery starts from scratch although the first checkpoint's output is committed. -/
theorem recovery_falls_back_too_far :
    ∃ s, Run.exec step initial promotionCutShort = some s ∧ s.committed = ["cp-1-1"] ∧
      s.resolve = .ok (none, []) ∧ ¬ s.SelectsLastCommitted := by
  have hcommitted : (Run.exec step initial promotionCutShort).map committed =
      some ["cp-1-1"] := by decide
  have hresolve : (Run.exec step initial promotionCutShort).map resolve =
      some (.ok (none, [])) := by rfl
  obtain ⟨s, hs, hcommitted⟩ := map_eq_some_iff.mp hcommitted
  rw [hs, map_some, some.injEq] at hresolve
  refine ⟨s, hs, hcommitted, hresolve, ?_⟩
  rw [selects_iff hresolve, hcommitted]
  decide

end DirectoryRun

end Weibo
