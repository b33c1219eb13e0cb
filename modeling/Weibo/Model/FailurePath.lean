import Weibo.ForStd.MarkedStream
import Weibo.Model.Coordinator

/-!
# Coordination failures

One run of the sink's `Write` loop (`sink/kafka_txn.go`), the coordinator's finalize worker and the
engine's fatal-error watcher (`Execute` in `mailer.go`), where every call may fail. The outcome of a
call is part of the event, so a run is one interleaving together with one choice of outcomes.

What reaches the checkpoint storage and the broker is recorded in a log, oldest
first.
-/

namespace Weibo

/-- Where the sink's `Write` loop is. -/
inductive WritePc where
  | reading
  /-- Blocked on the wait channel of `id`, or about to find it closed. -/
  | waiting (id : String)
  | returned
deriving DecidableEq, Repr

/-- The transactional sink: `waiters` are the ids whose wait channel is open, `produceErr` is the
    latched error of the open transaction. -/
structure TxnKafkaSink where
  pc : WritePc
  waiters : List String
  produceErr : Option String
deriving DecidableEq, Repr

namespace TxnKafkaSink

/-- Latch the first error of the transaction. -/
def setProduceErr (s : TxnKafkaSink) (err : Option String) : TxnKafkaSink :=
  { s with produceErr := s.produceErr.or err }

/-- Close the wait channel of `id`. -/
def signal (s : TxnKafkaSink) (id : String) : TxnKafkaSink :=
  { s with waiters := s.waiters.filter (· ≠ id) }

/-- The end of a successful `Commit` or `Abort`: the next transaction is open, without an error, and
    `Write` may go on. -/
def nextTxn (s : TxnKafkaSink) (id : String) : TxnKafkaSink :=
  signal { s with produceErr := none } id

end TxnKafkaSink

/-- What the finalize worker has done to the outside world. -/
inductive Effect where
  | saved (id : String)
  | committed (id : String)
  | completed (id : String)
  | aborted (id : String)
  | reported (id : String)
deriving DecidableEq, Repr

namespace Effect

/-- The checkpoint that has been given up. -/
def failure? : Effect → Option String
  | .aborted id | .reported id => some id
  | _ => none

/-- The checkpoint that has been taken further. -/
def progress? : Effect → Option String
  | .saved id | .committed id | .completed id => some id
  | _ => none

end Effect

/-- How a call of `CommitSink` ends. -/
inductive CommitOutcome where
  | ok
  /-- `EndTransaction` failed. -/
  | endFailed (err : String)
  /-- The transaction committed and `BeginTransaction` failed. -/
  | beginFailed (err : String)
deriving DecidableEq, Repr

/-- The processes of one run. `arrived` lists the barriers in stream order. -/
structure FailurePath (Snap Blob : Type) where
  sinkIn : List (Item Unit String)
  sink : TxnKafkaSink
  coord : Coordinator Snap Blob
  /-- Whether the watcher has relayed a fatal error already. -/
  relayed : Bool
  hardCancelled : Bool
  arrived : List String
  log : List Effect

namespace FailurePath

/-- One step of one process, with the outcome of the call it makes. -/
inductive Event (Snap Blob : Type) where
  | arriveData
  | arriveBarrier (id : String) (offsets : Blob) (state : Snap)
  | write (err : Option String)
  | resume
  | ctxDone
  | endInput
  | finalize
  | save (err : Option String)
  | abort (err : Option String)
  | commit (out : CommitOutcome)
  | complete (err : Option String)
  | report
  | watch
  | shutdownTimeout
  | stop
deriving DecidableEq, Repr

variable {Snap Blob : Type}

/-- The start of a run. -/
def initial (txnID : String) : FailurePath Snap Blob :=
  { sinkIn := [], sink := ⟨.reading, [], none⟩, coord := .new txnID, relayed := false,
    hardCancelled := false, arrived := [], log := [] }

/-- The worker moves on and its effect, if it has one, is logged. -/
def advance (s : FailurePath Snap Blob) (worker : Finalize Snap Blob) (effect : List Effect) :
    FailurePath Snap Blob :=
  { s with coord := { s.coord with worker := worker }, log := s.log ++ effect }

/-- One event; `none` when it is not enabled. -/
def step (s : FailurePath Snap Blob) : Event Snap Blob → Option (FailurePath Snap Blob)
  | .arriveData => some { s with sinkIn := s.sinkIn ++ [.data ()] }
  | .arriveBarrier id offsets state =>
    if id ∈ s.arrived then none
    else some { s with
      coord := (s.coord.onBarrierInjected id offsets).onStateSnapshot id state
      sinkIn := s.sinkIn ++ [.marker id]
      arrived := s.arrived ++ [id] }
  | .write err =>
    match s.sink.pc, s.sinkIn with
    | .reading, .data _ :: rest =>
      some { s with sinkIn := rest, sink := s.sink.setProduceErr err }
    | .reading, .marker id :: rest =>
      -- the flush error, else the error latched while producing
      some { s with
        sinkIn := rest
        sink := { s.sink with pc := .waiting id, waiters := id :: s.sink.waiters }
        coord := s.coord.onSinkPrepared id (err.or s.sink.produceErr) }
    | _, _ => none
  | .resume =>
    match s.sink.pc with
    | .waiting id =>
      -- the loop goes on once its channel has been closed
      if id ∈ s.sink.waiters then none
      else some { s with sink := { s.sink with pc := .reading } }
    | _ => none
  | .ctxDone =>
    match s.sink.pc with
    | .waiting _ =>
      if s.hardCancelled then some { s with sink := { s.sink with pc := .returned } } else none
    | _ => none
  | .endInput =>
    if s.sink.pc = .reading ∧ s.sinkIn = [] then
      some { s with sink := { s.sink with pc := .returned } }
    else none
  | .finalize => s.coord.finalizeBegin.map fun c => { s with coord := c }
  | .save err =>
    match s.coord.worker with
    | .taken id p =>
      match err with
      | none => some (s.advance (.saved id p) [.saved id])
      | some e =>
        some (s.advance (.aborting id ("checkpoint " ++ id ++ ": persist prepared: " ++ e)) [])
    | _ => none
  | .abort err =>
    match s.coord.worker with
    | .aborting id e =>
      -- a failed abort is only printed, and leaves `Write` blocked
      let sink := if err.isNone then s.sink.nextTxn id else s.sink
      some { s.advance (.reporting id e) [.aborted id] with sink := sink }
    | _ => none
  | .commit out =>
    match s.coord.worker with
    | .saved id p =>
      match out with
      | .ok =>
        some { s.advance (.committed id p) [.committed id] with sink := s.sink.nextTxn id }
      | .endFailed e =>
        some (s.advance (.reporting id ("checkpoint " ++ id ++ ": sink commit: " ++ e)) [])
      -- the transaction is committed, only the next one could not be opened
      | .beginFailed e =>
        some (s.advance (.reporting id ("checkpoint " ++ id ++ ": sink commit: " ++ e))
          [.committed id])
    | _ => none
  | .complete err =>
    match s.coord.worker with
    | .committed id _ =>
      match err with
      | none => some (s.advance .idle [.completed id])
      | some e =>
        some (s.advance (.reporting id ("checkpoint " ++ id ++ ": persist completed: " ++ e)) [])
    | _ => none
  | .report =>
    match s.coord.worker with
    | .reporting id e =>
      some { s with
        coord := { s.coord.reportFatal e with worker := .idle }
        log := s.log ++ [.reported id] }
    | _ => none
  | .watch =>
    -- the watcher relays one error and returns
    if s.relayed = false ∧ s.coord.fatal.isSome then
      some { s with
        coord := { s.coord with fatal := none }
        relayed := true
        hardCancelled := true }
    else none
  | .shutdownTimeout => some { s with hardCancelled := true }
  | .stop =>
    -- `Stop` runs after all stages have returned
    if s.sink.pc = .returned then some { s with coord := { s.coord with halted := true } } else none

/-- Whether a checkpoint has been aborted or reported. -/
def failed (s : FailurePath Snap Blob) : Bool := s.log.any fun x => x.failure?.isSome

/-- `y` takes a checkpoint further whose barrier is behind the one that `x` gives up. -/
def Overtakes (arrived : List String) (x y : Effect) : Prop :=
  ∃ id ∈ x.failure?, ∃ id' ∈ y.progress?, arrived.idxOf id < arrived.idxOf id'

/-- A failure is final: after it nothing is done for a later checkpoint. -/
def FailureFinal (s : FailurePath Snap Blob) : Prop :=
  s.log.Pairwise fun x y => ¬ Overtakes s.arrived x y

instance (arrived : List String) (x y : Effect) : Decidable (Overtakes arrived x y) :=
  inferInstanceAs (Decidable (∃ id ∈ x.failure?, ∃ id' ∈ y.progress?, _))

instance (s : FailurePath Snap Blob) : Decidable s.FailureFinal :=
  inferInstanceAs (Decidable (s.log.Pairwise _))

/-- The next element of the sink's input is a barrier. -/
def atBarrier (s : FailurePath Snap Blob) : Bool := (s.sinkIn.head?.bind Item.marker?).isSome

/-- The prepare of a queued checkpoint failed. -/
def prepareFailed (s : FailurePath Snap Blob) (id : String) : Bool :=
  (s.coord.pending id).all fun p => p.sinkErr.isSome

end FailurePath

end Weibo
