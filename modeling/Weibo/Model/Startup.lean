import Weibo.Model.BarrierSnapshots
import Weibo.Model.Recovery

/-!
# Starting a run (`Execute` in `mailer.go` up to the first stage)

A run starts in two phases. Phase A selects a checkpoint and restores the source offsets in it. Then
the plan is built, which opens the state backend of every owner: a memory backend is empty, a Pebble
backend shows what its directory holds. Phase B restores the state recorded for each owner, from a
native state directory if there is one and the backend can read it, and from inline bytes otherwise.

The outcome of every call that can fail is part of the input.  The checks of
the configuration that come before, and the uncoordinated mode, are left out.
-/

namespace Weibo

/-! ## What a checkpoint records -/

/-- The operator state in a checkpoint. `extractStateDirs` leaves no inline bytes to an owner that
    it lists a directory for. -/
structure OperatorRecord where
  operators : GoMap StateBytes
  stateDirs : GoMap String
  inline_nil : ∀ key, (stateDirs.lookup key).isSome → (operators.lookup key).getD none = none

/-- A checkpoint with operator state and the source's offset blob. -/
abbrev SavedCheckpoint := CheckpointData OperatorRecord Bytes

namespace SavedCheckpoint

/-- The native state directory of an owner. -/
def stateDir (d : SavedCheckpoint) (key : String) : Option String :=
  d.operators.bind fun r => r.stateDirs.lookup key

/-- The inline state of an owner, if it is not empty. -/
def inlineState (d : SavedCheckpoint) (key : String) : Option Bytes :=
  ((d.operators.bind fun r => r.operators.lookup key).getD none).filter fun bytes => bytes ≠ []

theorem inlineState_of_stateDir {d : SavedCheckpoint} {key dir : String}
    (h : d.stateDir key = some dir) : d.inlineState key = none := by
  obtain ⟨r, hr, hdir⟩ := Option.bind_eq_some_iff.mp h
  have hnil := r.inline_nil key (by rw [hdir]; rfl)
  rw [inlineState, hr, Option.bind_some, hnil]
  rfl

/-- The checkpoint records a state for the owner. -/
def HasState (d : SavedCheckpoint) (key : String) : Prop :=
  (d.stateDir key).isSome ∨ (d.inlineState key).isSome

end SavedCheckpoint

/-! ## Restoring operator state -/

/-- The two backend factories. Only the Pebble backend is `Checkpointable`. -/
inductive BackendKind where
  | memory
  | pebble
deriving DecidableEq

/-- A stateful operator or clone with its backend. -/
structure StateOwner where
  key : String
  backend : BackendKind
deriving DecidableEq

/-- The backends and operators a run starts with. `leftover` is what an earlier run has left in an
    owner's Pebble directory, `failedRestore` what the backend shows after a `RestoreFrom` that
    failed half way. -/
structure StateWorld (σ : Type) where
  empty : σ
  leftover : String → σ
  failedRestore : String → σ
  /-- `Restore` of the owner's operator on inline bytes. -/
  restore : String → Bytes → Except String σ
  /-- `RestoreFrom` on a directory of a checkpoint. -/
  restoreFrom : String → String → Except String σ

namespace StateWorld

variable {σ : Type} (w : StateWorld σ)

/-- What a backend holds when it has been opened. -/
def opened (o : StateOwner) : σ :=
  match o.backend with
  | .memory => w.empty
  | .pebble => w.leftover o.key

/-- The restore call made for an owner, with its result; `none` if no call is made. -/
def restoreCall (d : SavedCheckpoint) (o : StateOwner) : Option (Except String σ) :=
  match d.stateDir o.key, o.backend with
  -- native state is only read by a backend that can checkpoint natively
  | some dir, .pebble => some (w.restoreFrom d.id dir)
  | _, _ => (d.inlineState o.key).map (w.restore o.key)

/-- The owner's state afterwards. An error is printed and otherwise ignored; a failed `Restore`
    leaves the state as it was. -/
def restoreOperatorState (d : SavedCheckpoint) (o : StateOwner) : σ :=
  match w.restoreCall d o with
  | none => w.opened o
  | some (.ok s) => s
  | some (.error _) =>
    -- a `RestoreFrom` that fails may have emptied the directory already
    if (d.stateDir o.key).isSome ∧ o.backend = .pebble then w.failedRestore o.key else w.opened o

/-- The owner's state when the stages start. -/
def recoveredState (selected : Option SavedCheckpoint) (o : StateOwner) : σ :=
  match selected with
  | none => w.opened o
  | some d => w.restoreOperatorState d o

/-- The state that the selected checkpoint records for an owner: empty if there is none, and an
    error if it cannot be read. -/
def recordedState (selected : Option SavedCheckpoint) (key : String) : Except String σ :=
  match selected with
  | none => .ok w.empty
  | some d =>
    match d.stateDir key, d.inlineState key with
    | some dir, _ => w.restoreFrom d.id dir
    | none, some bytes => w.restore key bytes
    | none, none => .ok w.empty

/-- The owner's state does not depend on what is left in its directory and is not recorded in a form
    its backend cannot read. -/
def Disposable (selected : Option SavedCheckpoint) (o : StateOwner) : Prop :=
  match selected with
  | none => o.backend = .pebble → w.leftover o.key = w.empty
  | some d =>
    match d.stateDir o.key with
    | some dir => o.backend = .memory → ∀ s, w.restoreFrom d.id dir = .ok s → s = w.empty
    | none => d.inlineState o.key = none → o.backend = .pebble → w.leftover o.key = w.empty

end StateWorld

/-! ## Execute -/

/-- The outcomes of the calls a start makes. -/
structure Startup (σ : Type) extends StateWorld σ where
  load : Except String (Option SavedCheckpoint)
  wasCommitted : String → Except String Bool
  updateStatus : String → Except String Unit
  loadLatestCompleted : Except String (Option SavedCheckpoint)
  restoreOffset : Bytes → Except String Unit
  /-- The owners of the plan, or why it cannot be built. -/
  buildPlan : Except String (List StateOwner)

/-- A run whose stages start: the selected checkpoint, whether its offsets were restored, and the
    restore calls with their results. -/
structure Started (σ : Type) where
  selected : Option SavedCheckpoint
  restoredOffset : Option (Except String Unit)
  restored : List (StateOwner × Option (Except String σ))

namespace Startup

variable {σ : Type} (su : Startup σ)

/-- `resolveCoordinatedRecovery` with all the errors it can meet. -/
def resolve : Except String (Option SavedCheckpoint) :=
  match su.load with
  | .error e => .error ("load latest checkpoint: " ++ e)
  | .ok none => .ok none
  | .ok (some latest) =>
    if latest.completed then .ok (some latest)
    else
      match su.wasCommitted latest.id with
      | .error e => .error ("cannot resolve prepared checkpoint " ++ latest.id ++ ": " ++ e)
      | .ok true =>
        match su.updateStatus latest.id with
        | .error e => .error ("promote checkpoint " ++ latest.id ++ ": " ++ e)
        | .ok () => .ok (some { latest with status := .completed })
      -- a failing `Abort` is printed and changes nothing
      | .ok false => su.loadLatestCompleted

/-- The call of `RestoreOffset` for a checkpoint, if it holds offsets. -/
def restoreSourceOffset (d : SavedCheckpoint) : Option (Except String Unit) :=
  d.source.map su.restoreOffset

/-- Start a coordinated run. An error means that no stage was started. -/
def execute : Except String (Started σ) :=
  match su.resolve with
  | .error e => .error ("weibo: recovery: " ++ e)
  | .ok selected =>
    match su.buildPlan with
    | .error e => .error e
    | .ok owners => .ok
        { selected := selected
          -- neither of the two restores can stop the start
          restoredOffset := selected.bind su.restoreSourceOffset
          restored := owners.map fun o => (o, selected.bind fun d => su.restoreCall d o) }

/-- Loading the checkpoint, restoring the offsets or restoring an operator's state fails. -/
def StepFails : Prop :=
  (∃ e, su.resolve = .error e) ∨
  ∃ d, su.resolve = .ok (some d) ∧
    ((∃ e, su.restoreSourceOffset d = some (.error e)) ∨
      ∃ owners, su.buildPlan = .ok owners ∧
        ∃ o ∈ owners, ∃ e, su.restoreCall d o = some (.error e))

/-- The started run has restored the offsets and every state of the checkpoint. -/
def AllRestored (st : Started σ) (d : SavedCheckpoint) : Prop :=
  (d.source.isSome → st.restoredOffset = some (.ok ())) ∧
  ∀ key, d.HasState key → ∃ o s, (o, some (.ok s)) ∈ st.restored ∧ o.key = key ∧
    su.recordedState (some d) key = .ok s

/-- A failing step makes the start fail, and a run that starts has restored its checkpoint. -/
def Refuses : Prop :=
  (su.StepFails → ∃ e, su.execute = .error e) ∧
  ∀ st, su.execute = .ok st → ∀ d, st.selected = some d → su.AllRestored st d

end Startup

end Weibo
