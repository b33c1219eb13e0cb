import Weibo.Model.Startup

/-!
# What a run starts from

Two questions about the start of a run.

Is the recovered state that of the selected checkpoint, whatever earlier runs have left in the state
directories? `recovered_iff_disposable` says exactly when. It is not when a fresh start opens a
Pebble directory that is not empty (`leftover_survives_fresh_start`): only a restore wipes the
directory.

Does a start refuse if it cannot restore its checkpoint?  `refuses_iff` says
exactly when.  It refuses if the checkpoint cannot be selected or the plan cannot
be built; a failing restore of the offsets or of an operator's state is printed,
and the run starts (`starts_without_state`).
-/

namespace Weibo

open Option

/-! ## Recovered state -/

namespace StateWorld

variable {σ : Type} (w : StateWorld σ)

variable {d : SavedCheckpoint} {o : StateOwner}

theorem restoreCall_native {dir : String}
    (hdir : d.stateDir o.key = some dir) (hb : o.backend = .pebble) :
    w.restoreCall d o = some (w.restoreFrom d.id dir) := by
  rw [restoreCall, hdir, hb]

theorem restoreCall_unreadable {dir : String}
    (hdir : d.stateDir o.key = some dir) (hb : o.backend = .memory) :
    w.restoreCall d o = none := by
  rw [restoreCall, hdir, hb, SavedCheckpoint.inlineState_of_stateDir hdir]
  rfl

theorem restoreCall_inline (hdir : d.stateDir o.key = none) :
    w.restoreCall d o = (d.inlineState o.key).map (w.restore o.key) := by
  rw [restoreCall, hdir]

theorem recoveredState_of_call_none (h : w.restoreCall d o = none) : w.recoveredState (some d) o = w.opened o := by
  rw [recoveredState, restoreOperatorState, h]

theorem recoveredState_of_call_ok {s : σ} (h : w.restoreCall d o = some (.ok s)) : w.recoveredState (some d) o = s := by
  rw [recoveredState, restoreOperatorState, h]

/-- A backend that was opened is empty unless earlier runs have left something. -/
theorem opened_eq_empty_iff (o : StateOwner) :
    w.opened o = w.empty ↔ (o.backend = .pebble → w.leftover o.key = w.empty) := by
  unfold opened
  cases o.backend with
  | memory => simp
  | pebble => simp

/-- Whatever call is made, it reads what is recorded. -/
theorem recordedState_of_call {r : Except String σ} (h : w.restoreCall d o = some r) : w.recordedState (some d) o.key = r := by
  rw [recordedState]
  cases hdir : d.stateDir o.key with
  | some dir =>
    cases hb : o.backend with
    | memory =>
      rw [w.restoreCall_unreadable hdir hb] at h
      simp at h
    | pebble =>
      rw [w.restoreCall_native hdir hb] at h
      exact some.inj h
  | none =>
    rw [w.restoreCall_inline hdir] at h
    obtain ⟨bytes, hbytes, hr⟩ := map_eq_some_iff.mp h
    rw [hbytes]
    exact hr

/-- One owner's state is the recorded one exactly if it is disposable. -/
theorem recovered_owner_iff (selected : Option SavedCheckpoint) (o : StateOwner) :
    (∀ s, w.recordedState selected o.key = .ok s → w.recoveredState selected o = s) ↔
      w.Disposable selected o := by
  -- with nothing to restore, the question is what the opened backend holds
  have hopened : (∀ s, Except.ok (ε := String) w.empty = .ok s → w.opened o = s) ↔
      (o.backend = .pebble → w.leftover o.key = w.empty) := by
    rw [← w.opened_eq_empty_iff o]
    constructor
    · intro h
      exact h w.empty rfl
    · intro h s hs
      rw [h]
      exact Except.ok.inj hs
  cases selected with
  | none => exact hopened
  | some d =>
    rw [Disposable]
    cases hdir : d.stateDir o.key with
    | some dir =>
      cases hb : o.backend with
      | pebble =>
        apply iff_of_true
        · intro s hs
          apply w.recoveredState_of_call_ok
          have hcall := w.restoreCall_native hdir hb
          rw [hcall, ← w.recordedState_of_call hcall, hs]
        · intro h
          simp at h
      | memory =>
        -- native state that the backend cannot read: nothing is restored
        have hrec : w.recoveredState (some d) o = w.empty := by
          rw [w.recoveredState_of_call_none (w.restoreCall_unreadable hdir hb), opened, hb]
        have hrecorded : w.recordedState (some d) o.key = w.restoreFrom d.id dir := by
          rw [recordedState, hdir]
        rw [hrec, hrecorded]
        constructor
        · intro h _ s hs
          exact (h s hs).symm
        · intro h s hs
          exact (h rfl s hs).symm
    | none =>
      have hcall := w.restoreCall_inline hdir
      cases hin : d.inlineState o.key with
      | some bytes =>
        rw [hin, map_some] at hcall
        apply iff_of_true
        · intro s hs
          apply w.recoveredState_of_call_ok
          rw [hcall, ← w.recordedState_of_call hcall, hs]
        · intro h
          simp at h
      | none =>
        rw [hin, map_none] at hcall
        have hrecorded : w.recordedState (some d) o.key = .ok w.empty := by
          rw [recordedState, hdir, hin]
        rw [w.recoveredState_of_call_none hcall, hrecorded, hopened]
        simp

/-- Every operator and clone starts from the state that the selected checkpoint records for it, and
    empty if there is none, exactly if nothing is left in the directory of an owner that nothing is
    restored for and no native state meets a memory backend. -/
theorem recovered_iff_disposable (selected : Option SavedCheckpoint) (owners : List StateOwner) :
    (∀ o ∈ owners, ∀ s, w.recordedState selected o.key = .ok s →
      w.recoveredState selected o = s) ↔ ∀ o ∈ owners, w.Disposable selected o := by
  constructor
  · intro h o ho
    exact (w.recovered_owner_iff selected o).mp (h o ho)
  · intro h o ho
    exact (w.recovered_owner_iff selected o).mpr (h o ho)

/-- A crashed run has left the count 7 in the directory of its only clone. -/
def crashedRun : StateWorld ℕ where
  empty := 0
  leftover _ := 7
  failedRestore _ := 0
  restore _ _ := .ok 0
  restoreFrom _ _ := .ok 0

/-- The next run selects no checkpoint and still starts from the count 7. -/
theorem leftover_survives_fresh_start :
    crashedRun.recordedState none "worker-0" = .ok 0 ∧
      crashedRun.recoveredState none ⟨"worker-0", .pebble⟩ = 7 := ⟨rfl, rfl⟩

end StateWorld

/-! ## Refusing to start -/

namespace Startup

variable {σ : Type} (su : Startup σ)

/-- A start from a checkpoint directory, with a sink that knows what it has committed. -/
def fromStorage (fs : FileStorage OperatorRecord Bytes) (committed : String → Bool) : Startup σ :=
  { su with
    load := .ok fs.load
    wasCommitted := fun id => .ok (committed id)
    updateStatus := fun id =>
      if (fs.updateStatusLocked id .completed).isSome then .ok ()
      else .error ("checkpoint: update status: " ++ id ++ " not found")
    loadLatestCompleted := .ok fs.loadLatestCompleted }

/-- A start succeeds exactly if a checkpoint decision is reached and the plan is built. -/
theorem execute_ok_iff (st : Started σ) :
    su.execute = .ok st ↔ ∃ selected owners, su.resolve = .ok selected ∧
      su.buildPlan = .ok owners ∧ st = ⟨selected, selected.bind su.restoreSourceOffset,
        owners.map fun o => (o, selected.bind fun d => su.restoreCall d o)⟩ := by
  unfold execute
  cases su.resolve with
  | error e => simp
  | ok selected =>
    cases su.buildPlan with
    | error e => simp
    | ok owners => simp [eq_comm]

/-- The checkpoint's offsets and all its states can be restored, and are. -/
def Restorable (d : SavedCheckpoint) (owners : List StateOwner) : Prop :=
  (∀ r, su.restoreSourceOffset d = some r → r = .ok ()) ∧
  (∀ o ∈ owners, ∀ e, su.restoreCall d o ≠ some (.error e)) ∧
  ∀ key, d.HasState key → ∃ o ∈ owners, o.key = key ∧
    ((d.stateDir key).isSome → o.backend = .pebble)

/-- A recorded state is restored by an owner of its name with a backend that can read it. -/
theorem exists_restored_iff {owners : List StateOwner}
    (hcalls : ∀ o ∈ owners, ∀ e, su.restoreCall d o ≠ some (.error e)) {key : String}
    (hkey : d.HasState key) :
    (∃ o s, (o, some (Except.ok s)) ∈ owners.map (fun o => (o, su.restoreCall d o)) ∧
        o.key = key ∧ su.recordedState (some d) key = .ok s) ↔
      ∃ o ∈ owners, o.key = key ∧ ((d.stateDir key).isSome → o.backend = .pebble) := by
  constructor
  · rintro ⟨o, s, hmem, rfl, -⟩
    obtain ⟨o', ho', heq⟩ := List.mem_map.mp hmem
    obtain ⟨rfl, hcall⟩ := Prod.mk.inj heq
    refine ⟨o', ho', rfl, ?_⟩
    intro hdir
    obtain ⟨dir, hdir⟩ := isSome_iff_exists.mp hdir
    cases hb : o'.backend with
    | pebble => rfl
    | memory =>
      rw [su.restoreCall_unreadable hdir hb] at hcall
      simp at hcall
  · rintro ⟨o, ho, rfl, hpebble⟩
    -- a call is made for the owner, and it does not fail
    have hcall : ∃ r, su.restoreCall d o = some r := by
      cases hdir : d.stateDir o.key with
      | some dir => exact ⟨_, su.restoreCall_native hdir (hpebble (by rw [hdir]; rfl))⟩
      | none =>
        rw [su.restoreCall_inline hdir]
        rcases hkey with hkey | hkey
        · rw [hdir] at hkey
          simp at hkey
        · obtain ⟨bytes, hbytes⟩ := isSome_iff_exists.mp hkey
          rw [hbytes]
          exact ⟨_, rfl⟩
    obtain ⟨r, hr⟩ := hcall
    cases r with
    | error e => exact absurd hr (hcalls o ho e)
    | ok s =>
      refine ⟨o, s, List.mem_map.mpr ⟨o, ho, ?_⟩, rfl, su.recordedState_of_call hr⟩
      rw [hr]

/-- A start refuses whenever it cannot restore, and restores everything otherwise, exactly if every
    checkpoint it starts from can be restored completely. -/
theorem refuses_iff :
    su.Refuses ↔ ∀ d owners, su.resolve = .ok (some d) → su.buildPlan = .ok owners →
      su.Restorable d owners := by
  constructor
  · intro ⟨hfail, hrun⟩ d owners hresolve hplan
    have hexec := (su.execute_ok_iff _).mpr ⟨some d, owners, hresolve, hplan, rfl⟩
    -- this start succeeds, so no step of it may fail
    have hnofail : ¬ su.StepFails := by
      intro h
      obtain ⟨e, he⟩ := hfail h
      rw [hexec] at he
      simp at he
    have hcalls : ∀ o ∈ owners, ∀ e, su.restoreCall d o ≠ some (.error e) := by
      intro o ho e he
      exact hnofail (.inr ⟨d, hresolve, .inr ⟨owners, hplan, o, ho, e, he⟩⟩)
    refine ⟨?_, hcalls, ?_⟩
    · intro r hr
      cases r with
      | ok u => rfl
      | error e => exact absurd (.inr ⟨d, hresolve, .inl ⟨e, hr⟩⟩) hnofail
    · intro key hkey
      exact (su.exists_restored_iff hcalls hkey).mp ((hrun _ hexec d rfl).2 key hkey)
  · intro h
    constructor
    · intro hfail
      by_contra hstart
      -- otherwise the run starts, and from a checkpoint that can be restored
      have hok : ∃ st, su.execute = .ok st := by
        cases hexec : su.execute with
        | error e => exact absurd ⟨e, hexec⟩ hstart
        | ok st => exact ⟨st, rfl⟩
      obtain ⟨st, hexec⟩ := hok
      obtain ⟨selected, owners, hresolve, hplan, -⟩ := (su.execute_ok_iff st).mp hexec
      rcases hfail with ⟨e, he⟩ | ⟨d, hd, hstep⟩
      · rw [hresolve] at he
        simp at he
      · obtain ⟨hoffset, hcalls, -⟩ := h d owners hd hplan
        rcases hstep with ⟨e, he⟩ | ⟨owners', hplan', o, ho, e, he⟩
        · exact absurd (hoffset _ he) (by simp)
        · rw [hplan] at hplan'
          cases hplan'
          exact hcalls o ho e he
    · intro st hexec d hd
      obtain ⟨selected, owners, hresolve, hplan, rfl⟩ := (su.execute_ok_iff st).mp hexec
      have hsel : selected = some d := hd
      subst hsel
      obtain ⟨hoffset, hcalls, hstates⟩ := h d owners hresolve hplan
      refine ⟨?_, ?_⟩
      · intro hsource
        obtain ⟨blob, hblob⟩ := isSome_iff_exists.mp hsource
        have hcall : su.restoreSourceOffset d = some (su.restoreOffset blob) := by
          rw [restoreSourceOffset, hblob]
          rfl
        show su.restoreSourceOffset d = _
        rw [hcall, hoffset _ hcall]
      · intro key hkey
        exact (su.exists_restored_iff hcalls hkey).mpr (hstates key hkey)

/-- A completed checkpoint with offsets and a native state directory. -/
def nativeCheckpoint : SavedCheckpoint where
  id := "cp-1-1"
  operators := some ⟨∅, (∅ : GoMap String).insert "worker-0" "worker-0", fun _ _ => rfl⟩
  source := some []
  status := .completed
  txnID := ""

/-- Everything works but reading the state directory back. -/
def brokenStateDir : Startup ℕ where
  empty := 0
  leftover _ := 0
  failedRestore _ := 0
  restore _ _ := .ok 0
  restoreFrom _ _ := .error "copy checkpoint -> live: no such file or directory"
  load := .ok (some nativeCheckpoint)
  wasCommitted _ := .ok false
  updateStatus _ := .ok ()
  loadLatestCompleted := .ok none
  restoreOffset _ := .ok ()
  buildPlan := .ok [⟨"worker-0", .pebble⟩]

/-- The run starts behind the checkpoint's offsets and without its state. -/
theorem starts_without_state :
    (∃ st, brokenStateDir.execute = .ok st) ∧ brokenStateDir.StepFails ∧
      ¬ brokenStateDir.Refuses := by
  have hcall : brokenStateDir.restoreCall nativeCheckpoint ⟨"worker-0", .pebble⟩ =
      some (.error "copy checkpoint -> live: no such file or directory") := by rfl
  have hfails : brokenStateDir.StepFails :=
    .inr ⟨nativeCheckpoint, rfl, .inr ⟨_, rfl, _, List.mem_singleton_self _, _, hcall⟩⟩
  refine ⟨⟨_, rfl⟩, hfails, ?_⟩
  intro hrefuses
  obtain ⟨e, he⟩ := hrefuses.1 hfails
  exact absurd he (by simp [execute, resolve, brokenStateDir, nativeCheckpoint,
    CheckpointData.completed])

end Startup

end Weibo
