import Mathlib.Data.Nat.Notation
import Weibo.Model.Coordinator

/-!
# Stopping the coordinator (`checkpoint/coordinator.go`)

`Weibo.Model.Coordinator` registers a prepared checkpoint and queues it in one
step.  Here the calls are cut where other goroutines can come in between: any
number of `OnSinkPrepared` calls, any number of `Stop` calls and the finalize
worker, which share the mutex `mu`, the flag `halted`, the wait groups `sendWg`
and `wg`, the once `stopOnce` and the channel `events` with its 16 slots.

Each goroutine has a program counter.  A step is one call that may block
(`Lock`, a send, a receive, `Wait`), the body of a critical section up to
`Unlock`, or a sink, storage or hook call of the worker that returns; what it
returns is part of the event.  A callback that is nil is one that returns at
once without an error.
-/

namespace Weibo

namespace Coordinator

/-- A point of the protocol after which the test hook is fired. -/
inductive Step where
  | persistPrepared
  | sinkCommitted
  | persistCompleted
  | offsetsCommitted
deriving DecidableEq, Repr

/-- The text of a step. -/
def Step.text : Step → String
  | .persistPrepared => "persist-prepared"
  | .sinkCommitted => "sink-committed"
  | .persistCompleted => "persist-completed"
  | .offsetsCommitted => "offsets-committed"

/-- What a test hook tells the coordinator to do after a step. Without a hook it is always
    `hookContinue`. -/
inductive HookAction where
  | hookContinue
  | hookFail
  | hookHalt
deriving DecidableEq, Repr

/-- How many ids `events` holds. -/
def eventsCap : ℕ := 16

end Coordinator

/-- Where a call of `OnSinkPrepared` is. -/
inductive SenderPc where
  /-- At `c.mu.Lock()`. -/
  | lock
  /-- In the critical section. -/
  | locked
  /-- At `c.events <- id`. -/
  | send
  /-- At the deferred `c.sendWg.Done()`. -/
  | done
  | returned
deriving DecidableEq, Repr

/-- A call of `OnSinkPrepared`. -/
structure Sender where
  id : String
  sinkErr : Option String
  pc : SenderPc := .lock
deriving DecidableEq, Repr

/-- Registered on `sendWg`. -/
def Sender.inFlight (c : Sender) : Bool := c.pc == .send || c.pc == .done

/-- Where a call of `Stop` is. -/
inductive StopperPc where
  /-- At `c.stopOnce.Do`. -/
  | once
  /-- In the function of the once, at `c.mu.Lock()`. -/
  | lock
  | locked
  /-- At `c.sendWg.Wait()`. -/
  | waitSends
  /-- At `close(c.events)`. -/
  | close
  /-- At `c.wg.Wait()`. -/
  | waitWorker
  | returned
deriving DecidableEq, Repr

/-- Inside the function of the once. -/
def StopperPc.inOnce : StopperPc → Bool
  | .lock | .locked | .waitSends | .close => true
  | .once | .waitWorker | .returned => false

/-- Where the finalize worker is. -/
inductive WorkerPc (Snap Blob : Type) where
  /-- At the receive of `range c.events`. -/
  | receive
  /-- At the `c.mu.Lock()` of `finalize`. -/
  | lock (id : String)
  /-- At the halted check. -/
  | locked (id : String)
  /-- At `c.Storage.Save`. -/
  | save (id : String) (p : PendingCheckpoint Snap Blob)
  /-- At `c.step`. -/
  | hook (step : Coordinator.Step) (id : String) (p : PendingCheckpoint Snap Blob)
  /-- At `c.CommitSink`. -/
  | commitSink (id : String) (p : PendingCheckpoint Snap Blob)
  /-- At `c.Storage.UpdateStatus`. -/
  | updateStatus (id : String) (p : PendingCheckpoint Snap Blob)
  /-- At `c.CommitOffsets`. -/
  | commitOffsets (id : String) (p : PendingCheckpoint Snap Blob)
  /-- At the `c.mu.Lock()` of a hook that halts. -/
  | haltLock (id : String)
  | haltLocked (id : String)
  /-- In `abortFatal`, at `c.AbortSink`. -/
  | abortSink (id : String) (err : String)
  /-- At `c.reportFatal`. -/
  | report (id : String) (err : String)
  /-- The goroutine has returned. -/
  | exited
deriving DecidableEq, Repr

/-- The checkpoint whose finalization is past the halted check. -/
def WorkerPc.finalizing {Snap Blob : Type} : WorkerPc Snap Blob → Option String
  | .receive | .lock _ | .locked _ | .exited => none
  | .save id _ | .hook _ id _ | .commitSink id _ | .updateStatus id _ | .commitOffsets id _
  | .haltLock id | .haltLocked id | .abortSink id _ | .report id _ => some id

/-- Who holds the mutex. -/
inductive Holder where
  | sender (i : ℕ)
  | stopper (i : ℕ)
  | worker
deriving DecidableEq, Repr

/-- A `sync.Once`: not called yet, its function running, or its function returned. -/
inductive OnceState where
  | fresh
  | running
  | done
deriving DecidableEq, Repr

/-- The coordinator with the goroutines that use it. `senders` and `stoppers` are the calls of
    `OnSinkPrepared` and `Stop` made so far. `enqueued` and `taken` list the ids sent to and
    received from `events`; `begun` and `ended` the ids whose finalization got past the halted check
    and came to its end; no step reads these four. `panicked` is set by a send on a closed channel,
    by closing one again and by a wait group that becomes negative. -/
structure Stopping (Snap Blob : Type) where
  mu : Option Holder := none
  pending : String → Option (PendingCheckpoint Snap Blob) := fun _ => none
  halted : Bool := false
  events : List String := []
  closed : Bool := false
  fatal : Option String := none
  wg : ℕ := 1
  sendWg : ℕ := 0
  stopOnce : OnceState := .fresh
  senders : List Sender := []
  stoppers : List StopperPc := []
  worker : WorkerPc Snap Blob := .receive
  enqueued : List String := []
  taken : List String := []
  begun : List String := []
  ended : List String := []
  panicked : Bool := false

/-- What a call of the worker returns, and what the hook says. -/
structure Reply where
  err : Option String := none
  action : Coordinator.HookAction := .hookContinue

/-- The events: a new call, or a step of one goroutine. -/
inductive StopEvent where
  | onSinkPrepared (id : String) (sinkErr : Option String)
  | stop
  | sender (i : ℕ)
  | stopper (i : ℕ)
  | worker (reply : Reply)

/-- A step of a goroutine, as opposed to a new call. -/
def StopEvent.ofGoroutine : StopEvent → Bool
  | .onSinkPrepared _ _ | .stop => false
  | .sender _ | .stopper _ | .worker _ => true

namespace Stopping

variable {Snap Blob : Type}

/-- Take the mutex if it is free. -/
def acquire (s : Stopping Snap Blob) (g : Holder) : Option (Stopping Snap Blob) :=
  if s.mu = none then some { s with mu := some g } else none

/-- Move the `i`-th call of `OnSinkPrepared`. -/
def setSender (s : Stopping Snap Blob) (i : ℕ) (c : Sender) (pc : SenderPc) :
    Stopping Snap Blob :=
  { s with senders := s.senders.set i { c with pc := pc } }

/-- Move the `i`-th call of `Stop`. -/
def setStopper (s : Stopping Snap Blob) (i : ℕ) (pc : StopperPc) : Stopping Snap Blob :=
  { s with stoppers := s.stoppers.set i pc }

/-- Register the acknowledgement of the sink. -/
def register (s : Stopping Snap Blob) (c : Sender) : Stopping Snap Blob :=
  { s with
    pending := Function.update s.pending c.id
      (some { (s.pending c.id).getD {} with prepared := true, sinkErr := c.sinkErr }) }

/-- A step of the `i`-th call `c` of `OnSinkPrepared`. -/
def senderStep (s : Stopping Snap Blob) (i : ℕ) (c : Sender) : Option (Stopping Snap Blob) :=
  match c.pc with
  | .lock => (s.acquire (.sender i)).map fun s' => s'.setSender i c .locked
  | .locked =>
    let s' := { s.register c with mu := none }
    if s.halted then some (s'.setSender i c .returned)
    -- the send is registered in the critical section that reads `halted`
    else some ({ s' with sendWg := s.sendWg + 1 }.setSender i c .send)
  | .send =>
    if s.closed then some ({ s with panicked := true }.setSender i c .returned)
    else if s.events.length < Coordinator.eventsCap then
      some ({ s with
        events := s.events ++ [c.id], enqueued := s.enqueued ++ [c.id] }.setSender i c .done)
    else none
  | .done =>
    if s.sendWg = 0 then some ({ s with panicked := true }.setSender i c .returned)
    else some ({ s with sendWg := s.sendWg - 1 }.setSender i c .returned)
  | .returned => none

/-- A step of the `i`-th call of `Stop`. -/
def stopperStep (s : Stopping Snap Blob) (i : ℕ) : StopperPc → Option (Stopping Snap Blob)
  | .once =>
    match s.stopOnce with
    | .fresh => some ({ s with stopOnce := .running }.setStopper i .lock)
    -- a second caller blocks until the first is through
    | .running => none
    | .done => some (s.setStopper i .waitWorker)
  | .lock => (s.acquire (.stopper i)).map fun s' => s'.setStopper i .locked
  | .locked => some ({ s with halted := true, mu := none }.setStopper i .waitSends)
  | .waitSends => if s.sendWg = 0 then some (s.setStopper i .close) else none
  | .close =>
    if s.closed then some ({ s with panicked := true }.setStopper i .returned)
    else some ({ s with closed := true, stopOnce := .done }.setStopper i .waitWorker)
  | .waitWorker => if s.wg = 0 then some (s.setStopper i .returned) else none
  | .returned => none

/-- `finalize` returns after the halted check. -/
def finish (s : Stopping Snap Blob) (id : String) : Stopping Snap Blob :=
  { s with worker := .receive, ended := s.ended ++ [id] }

/-- The protocol step that follows a hook which says to continue. -/
def afterHook (s : Stopping Snap Blob) (id : String) (p : PendingCheckpoint Snap Blob) :
    Coordinator.Step → Stopping Snap Blob
  | .persistPrepared => { s with worker := .commitSink id p }
  | .sinkCommitted => { s with worker := .updateStatus id p }
  | .persistCompleted =>
    -- the offsets are committed only if some were registered
    if p.offsets.isSome then { s with worker := .commitOffsets id p }
    else { s with worker := .hook .offsetsCommitted id p }
  | .offsetsCommitted => s.finish id

/-- The part of `finalize` between `Lock` and the first call it makes. -/
def finalizeLocked (s : Stopping Snap Blob) (id : String) : Stopping Snap Blob :=
  if s.halted then { s with mu := none, worker := .receive }
  else
    let s' := { s with
      mu := none
      pending := Function.update s.pending id none
      begun := s.begun ++ [id] }
    match s.pending id with
    | none => s'.finish id
    | some p =>
      match p.sinkErr with
      | some err =>
        { s' with
          worker := .abortSink id ("checkpoint " ++ id ++ ": sink prepare failed: " ++ err) }
      | none => { s' with worker := .save id p }

/-- A step of the finalize worker. -/
def workerStep (s : Stopping Snap Blob) (reply : Reply) : Option (Stopping Snap Blob) :=
  match s.worker with
  | .receive =>
    match s.events with
    | id :: rest => some { s with events := rest, taken := s.taken ++ [id], worker := .lock id }
    -- `range` ends when the channel is closed and empty
    | [] =>
      if s.closed then
        if s.wg = 0 then some { s with worker := .exited, panicked := true }
        else some { s with worker := .exited, wg := s.wg - 1 }
      else none
  | .lock id => (s.acquire .worker).map fun s' => { s' with worker := .locked id }
  | .locked id => some (s.finalizeLocked id)
  | .save id p =>
    match reply.err with
    | some err =>
      some { s with
        worker := .abortSink id ("checkpoint " ++ id ++ ": persist prepared: " ++ err) }
    | none => some { s with worker := .hook .persistPrepared id p }
  | .hook step id p =>
    match reply.action with
    | .hookFail =>
      some { s with
        worker := .abortSink id
          ("checkpoint " ++ id ++ ": injected failure after " ++ step.text) }
    | .hookHalt => some { s with worker := .haltLock id }
    | .hookContinue => some (s.afterHook id p step)
  | .commitSink id p =>
    match reply.err with
    | some err =>
      some { s with worker := .report id ("checkpoint " ++ id ++ ": sink commit: " ++ err) }
    | none => some { s with worker := .hook .sinkCommitted id p }
  | .updateStatus id p =>
    match reply.err with
    | some err =>
      some { s with worker := .report id ("checkpoint " ++ id ++ ": persist completed: " ++ err) }
    | none => some { s with worker := .hook .persistCompleted id p }
  -- an error of the advisory commit is only printed
  | .commitOffsets id p => some { s with worker := .hook .offsetsCommitted id p }
  | .haltLock id => (s.acquire .worker).map fun s' => { s' with worker := .haltLocked id }
  | .haltLocked id => some ({ s with halted := true, mu := none }.finish id)
  | .abortSink id err => some { s with worker := .report id err }
  | .report id err => some ({ s with fatal := some (s.fatal.getD err) }.finish id)
  | .exited => none

/-- One event; `none` when it is not enabled. -/
def step (s : Stopping Snap Blob) : StopEvent → Option (Stopping Snap Blob)
  | .onSinkPrepared id sinkErr =>
    some { s with senders := s.senders ++ [{ id := id, sinkErr := sinkErr }] }
  | .stop => some { s with stoppers := s.stoppers ++ [.once] }
  | .sender i => (s.senders[i]?).bind fun c => s.senderStep i c
  | .stopper i => (s.stoppers[i]?).bind fun pc => s.stopperStep i pc
  | .worker reply => s.workerStep reply

/-- Some call of `Stop` has returned. -/
def StopReturned (s : Stopping Snap Blob) : Prop := StopperPc.returned ∈ s.stoppers

/-- Some call of `Stop` or `OnSinkPrepared` has not returned. -/
def Unfinished (s : Stopping Snap Blob) : Prop :=
  (∃ c ∈ s.senders, c.pc ≠ .returned) ∨ ∃ pc ∈ s.stoppers, pc ≠ StopperPc.returned

end Stopping

end Weibo
