import Weibo.Model.Checkpoint

/-!
# The checkpoint coordinator (`checkpoint/coordinator.go`)

The coordinator collects what belongs to a checkpoint as its barrier travels: the source offsets
when the barrier is injected, the operator state when it reaches the tap in front of the sink, and
the sink's acknowledgement once its output is staged. The acknowledgement queues the checkpoint for
the finalize worker, which drives it through the two-phase commit.

`Finalize` is the program counter of that worker.  Between two of its values
the worker performs one protocol step, so a crash or another goroutine can come
in between any two of them.  The test-only hook after each step is nil outside
of tests and left out.
-/

namespace Weibo

/-- What has been registered for a checkpoint so far. -/
structure PendingCheckpoint (Snap Blob : Type) where
  offsets : Option Blob := none
  state : Option Snap := none
  prepared : Bool := false
  sinkErr : Option String := none
deriving DecidableEq, Repr

/-- The program counter of the finalize worker. -/
inductive Finalize (Snap Blob : Type) where
  /-- Waiting for the next id on the events channel. -/
  | idle
  /-- Took `id` and its registered parts; nothing has been persisted. -/
  | taken (id : String) (p : PendingCheckpoint Snap Blob)
  /-- In `abortFatal`, about to call `AbortSink`. -/
  | aborting (id : String) (err : String)
  /-- About to report the fatal error. -/
  | reporting (id : String) (err : String)
  /-- The checkpoint is saved as prepared; about to call `CommitSink`. -/
  | saved (id : String) (p : PendingCheckpoint Snap Blob)
  /-- The sink transaction is committed; about to promote the checkpoint. -/
  | committed (id : String) (p : PendingCheckpoint Snap Blob)
deriving DecidableEq, Repr

/-- The coordinator: `events` are the ids queued for finalization, oldest first, `fatal` is the
    one-slot channel of the first fatal error. -/
structure Coordinator (Snap Blob : Type) where
  txnID : String
  pending : String → Option (PendingCheckpoint Snap Blob)
  halted : Bool
  events : List String
  fatal : Option String
  worker : Finalize Snap Blob

namespace Coordinator

variable {Snap Blob : Type}

/-- A coordinator with nothing registered. -/
def new (txnID : String) : Coordinator Snap Blob :=
  ⟨txnID, fun _ => none, false, [], none, .idle⟩

/-- The pending entry of an id, a fresh one if there is none. -/
def ensure (c : Coordinator Snap Blob) (id : String) : PendingCheckpoint Snap Blob :=
  (c.pending id).getD {}

/-- Record the barrier-aligned offsets of a checkpoint. -/
def onBarrierInjected (c : Coordinator Snap Blob) (id : String) (offsets : Blob) :
    Coordinator Snap Blob :=
  { c with
    pending := Function.update c.pending id (some { c.ensure id with offsets := some offsets }) }

/-- Record the operator state of a checkpoint. -/
def onStateSnapshot (c : Coordinator Snap Blob) (id : String) (state : Snap) :
    Coordinator Snap Blob :=
  { c with
    pending := Function.update c.pending id (some { c.ensure id with state := some state }) }

/-- The sink has staged all output of a checkpoint, or failed to: queue it for finalization unless
    the coordinator is halted. -/
def onSinkPrepared (c : Coordinator Snap Blob) (id : String) (sinkErr : Option String) :
    Coordinator Snap Blob :=
  { c with
    pending := Function.update c.pending id
      (some { c.ensure id with prepared := true, sinkErr := sinkErr })
    events := if c.halted then c.events else c.events ++ [id] }

/-- The finalize worker receives the next id. A halted coordinator and an id with nothing registered
    end `finalize` at once; a failed prepare goes straight to `abortFatal`. -/
def finalizeBegin (c : Coordinator Snap Blob) : Option (Coordinator Snap Blob) :=
  match c.worker, c.events with
  | .idle, id :: rest =>
    -- after `Stop` the queue is drained without effect
    if c.halted then some { c with events := rest }
    else
      let c' := { c with events := rest, pending := Function.update c.pending id none }
      match c.pending id with
      | none => some c'
      | some p =>
        match p.sinkErr with
        | some err =>
          some { c' with
            worker := .aborting id ("checkpoint " ++ id ++ ": sink prepare failed: " ++ err) }
        -- staged successfully: on to the two-phase commit
        | none => some { c' with worker := .taken id p }
  | _, _ => none

/-- The record that logs the commit decision. -/
def preparedData (c : Coordinator Snap Blob) (id : String) (p : PendingCheckpoint Snap Blob) :
    CheckpointData Snap Blob :=
  { id := id, operators := p.state, source := p.offsets, status := .prepared, txnID := c.txnID }

/-- Report a fatal error; only the first one is kept. -/
def reportFatal (c : Coordinator Snap Blob) (err : String) : Coordinator Snap Blob :=
  { c with fatal := some (c.fatal.getD err) }

/-- The worker only receives an id when it is idle. It drops the id if the coordinator is halted or
    has nothing registered for it, else the outcome of the prepare decides where it goes. -/
theorem finalizeBegin_some {c c' : Coordinator Snap Blob} (h : c.finalizeBegin = some c') :
    c.worker = .idle ∧ ∃ id rest, c.events = id :: rest ∧ c'.events = rest ∧ c'.halted = c.halted ∧
      ((c.halted = true ∧ c'.pending = c.pending ∧ c'.worker = .idle) ∨
        (c.halted = false ∧ c'.pending = Function.update c.pending id none ∧
          ((c.pending id = none ∧ c'.worker = .idle) ∨ ∃ p, c.pending id = some p ∧
              ((∃ err e, p.sinkErr = some err ∧ c'.worker = .aborting id e) ∨
                (p.sinkErr = none ∧ c'.worker = .taken id p))))) := by
  unfold finalizeBegin at h
  split at h
  · rename_i id rest hworker hevents
    refine ⟨hworker, id, rest, hevents, ?_⟩
    split at h
    · rename_i hhalted
      cases h
      exact ⟨rfl, rfl, .inl ⟨hhalted, rfl, hworker⟩⟩
    · rename_i hhalted
      have hhalted : c.halted = false := by simpa using hhalted
      split at h
      · rename_i hp
        cases h
        exact ⟨rfl, rfl, .inr ⟨hhalted, rfl, .inl ⟨hp, hworker⟩⟩⟩
      · rename_i p hp
        split at h
        · rename_i err herr
          cases h
          exact ⟨rfl, rfl, .inr ⟨hhalted, rfl, .inr ⟨p, hp, .inl ⟨err, _, herr, rfl⟩⟩⟩⟩
        · rename_i herr
          cases h
          exact ⟨rfl, rfl, .inr ⟨hhalted, rfl, .inr ⟨p, hp, .inr ⟨herr, rfl⟩⟩⟩⟩
  · simp at h

/-! ## The pending map -/

section Registered

variable (c : Coordinator Snap Blob)

include c

theorem onBarrierInjected_pending (id : String) (offsets : Blob) (id' : String) :
    (c.onBarrierInjected id offsets).pending id' =
      if id' = id then some { c.ensure id with offsets := some offsets } else c.pending id' :=
  Function.update_apply ..

theorem onStateSnapshot_pending (id : String) (state : Snap) (id' : String) :
    (c.onStateSnapshot id state).pending id' =
      if id' = id then some { c.ensure id with state := some state } else c.pending id' :=
  Function.update_apply ..

theorem onSinkPrepared_pending (id : String) (sinkErr : Option String) (id' : String) :
    (c.onSinkPrepared id sinkErr).pending id' =
      if id' = id then some { c.ensure id with prepared := true, sinkErr := sinkErr }
      else c.pending id' :=
  Function.update_apply ..

theorem ensure_offsets (id : String) :
    (c.ensure id).offsets = (c.pending id).bind PendingCheckpoint.offsets := by
  unfold ensure
  cases c.pending id <;> rfl

theorem ensure_state (id : String) :
    (c.ensure id).state = (c.pending id).bind PendingCheckpoint.state := by
  unfold ensure
  cases c.pending id <;> rfl

/-- Registering state leaves the registered offsets as they are. -/
theorem onStateSnapshot_offsets (id : String) (state : Snap) (id' : String) :
    ((c.onStateSnapshot id state).pending id').bind PendingCheckpoint.offsets =
      (c.pending id').bind PendingCheckpoint.offsets := by
  rw [onStateSnapshot_pending]
  split
  · rename_i heq
    rw [heq, ← ensure_offsets]
    rfl
  · rfl

/-- The sink's acknowledgement leaves offsets and state as they are. -/
theorem onSinkPrepared_registered (id : String) (sinkErr : Option String) (id' : String) :
    ((c.onSinkPrepared id sinkErr).pending id').bind PendingCheckpoint.offsets =
        (c.pending id').bind PendingCheckpoint.offsets ∧
      ((c.onSinkPrepared id sinkErr).pending id').bind PendingCheckpoint.state =
        (c.pending id').bind PendingCheckpoint.state := by
  rw [onSinkPrepared_pending]
  split
  · rename_i heq
    rw [heq, ← ensure_offsets, ← ensure_state]
    exact ⟨rfl, rfl⟩
  · exact ⟨rfl, rfl⟩

end Registered

/-- A new entry has no error, and an old one keeps the error it has. -/
theorem ensure_sinkErr {c : Coordinator Snap Blob}
    (h : ∀ id p, c.pending id = some p → p.sinkErr = none) (id : String) :
    (c.ensure id).sinkErr = none := by
  unfold ensure
  cases hp : c.pending id with
  | none => rfl
  | some p => exact h id p hp

end Coordinator

end Weibo
