import Weibo.Model.FailurePath

/-!
# Produce callbacks of the transactional sink (`sink/kafka_txn.go`)

`FailurePath` has the sink's `Write` loop, the finalize worker and the fatal-error watcher. Here the
records of a transaction come in. `produce` hands a record to the client, and its callback runs some
time later on a goroutine of the client; a failed one sets the error latch, as does a record that
does not serialize. On a barrier `Write` produces the marker, which is a record of the transaction
too, calls `Flush`, and reports its error or the latched one.

Assumed of the client: `Flush`, and `AbortBufferedRecords`, return nil only after all callbacks have
run.

Records are numbered by interval: those behind `n` barriers, up to and including the marker
of the next one, have the number `n`.  What has failed, has been reported and has been
committed is logged.
-/

namespace Weibo

/-- A prepare that `Write` has reported to the coordinator. -/
structure PrepareReport where
  id : String
  flushErr : Option String
  err : Option String
deriving DecidableEq, Repr

/-- What the client holds, and what has happened to the records, each given by the number of its
    interval. -/
structure TxnLedger where
  /-- The barrier whose `Flush` is running. -/
  flushing : Option String
  /-- The produced records whose callbacks have not run. -/
  inflight : List ℕ
  /-- The records of the open transaction. -/
  staged : List ℕ
  /-- The barriers that `Write` has flushed, oldest first. -/
  barriers : List String
  /-- The records that did not serialize, or whose callback got an error. -/
  failures : List ℕ
  prepares : List PrepareReport
  /-- The calls of `EndTransaction(TryCommit)`, with the records of the transaction. -/
  commits : List (String × List ℕ)
deriving DecidableEq, Repr

namespace TxnLedger

/-- A client with an open transaction and no records. -/
def new : TxnLedger := ⟨none, [], [], [], [], [], []⟩

/-- The number of the records that `Write` reads now. -/
def current (l : TxnLedger) : ℕ := l.barriers.length

/-- The number of the records ahead of a barrier. -/
def interval (l : TxnLedger) (id : String) : ℕ := l.barriers.idxOf id

/-- Hand a record to the client. -/
def produce (l : TxnLedger) : TxnLedger :=
  { l with inflight := l.inflight ++ [l.current], staged := l.staged ++ [l.current] }

end TxnLedger

/-- How a call of `Abort` ends. -/
inductive AbortOutcome where
  | ok
  /-- `AbortBufferedRecords` failed. -/
  | bufferedFailed (err : String)
  /-- `EndTransaction` failed. -/
  | endFailed (err : String)
  /-- The transaction is aborted and `BeginTransaction` failed. -/
  | beginFailed (err : String)
deriving DecidableEq, Repr

/-- The error that `Abort` returns. -/
def AbortOutcome.err? : AbortOutcome → Option String
  | .ok => none
  | .bufferedFailed err | .endFailed err | .beginFailed err => some err

/-- Whether the open transaction is thrown away. -/
def AbortOutcome.ends : AbortOutcome → Bool
  | .ok | .beginFailed _ => true
  | .bufferedFailed _ | .endFailed _ => false

/-- Whether the open transaction is committed. -/
def CommitOutcome.ends : CommitOutcome → Bool
  | .ok | .beginFailed _ => true
  | .endFailed _ => false

/-- One run of the processes with the records of the sink. -/
structure TxnRun (Snap Blob : Type) where
  path : FailurePath Snap Blob
  ledger : TxnLedger

namespace TxnRun

/-- One step of one process. -/
inductive Event (Snap Blob : Type) where
  /-- A step that does not touch the client. -/
  | path (e : FailurePath.Event Snap Blob)
  /-- `Write` takes a data record; `err` if it does not serialize. -/
  | record (err : Option String)
  /-- `Write` takes a barrier, produces its marker and calls `Flush`. -/
  | marker
  /-- `Flush` returns, and `Write` reports the prepare. -/
  | flush (err : Option String)
  /-- The callback of one of the produced records runs. -/
  | callback (i : ℕ) (err : Option String)
  | abort (out : AbortOutcome)
  | commit (out : CommitOutcome)
  /-- `Write` has returned and aborts the open transaction. -/
  | deferredAbort
deriving DecidableEq, Repr

variable {Snap Blob : Type}

/-- The start of a run. -/
def initial (txnID : String) : TxnRun Snap Blob := ⟨.initial txnID, .new⟩

/-- One event; `none` when it is not enabled. -/
def step (s : TxnRun Snap Blob) : Event Snap Blob → Option (TxnRun Snap Blob)
  | .path e =>
    match e with
    | .write _ | .abort _ | .commit _ => none
    | e => (s.path.step e).map fun path => { s with path := path }
  | .record err =>
    match s.path.sinkIn with
    | .data _ :: _ =>
      (s.path.step (.write (err.map fun e => "serialize: " ++ e))).map fun path =>
        -- a record that does not serialize is skipped
        { path := path
          ledger := if err.isSome then
              { s.ledger with failures := s.ledger.failures ++ [s.ledger.current] }
            else s.ledger.produce }
    | _ => none
  | .marker =>
    match s.path.sink.pc, s.path.sinkIn, s.ledger.flushing with
    | .reading, .marker id :: _, none =>
      some { s with ledger := { s.ledger.produce with flushing := some id } }
    | _, _, _ => none
  | .flush err =>
    match s.ledger.flushing with
    | some id =>
      -- `Flush` returns nil only after all callbacks have run
      if err = none ∧ s.ledger.inflight ≠ [] then none
      else
        (s.path.step (.write err)).map fun path =>
          { path := path
            ledger := { s.ledger with
              flushing := none
              barriers := s.ledger.barriers ++ [id]
              prepares := s.ledger.prepares ++ [⟨id, err, err.or s.path.sink.produceErr⟩] } }
    | none => none
  | .callback i err =>
    match s.ledger.inflight[i]? with
    | some n =>
      some
        { path := { s.path with sink := s.path.sink.setProduceErr err }
          ledger := { s.ledger with
            inflight := s.ledger.inflight.eraseIdx i
            failures := s.ledger.failures ++ if err.isSome then [n] else [] } }
    | none => none
  | .abort out =>
    -- `AbortBufferedRecords` returns nil only after all callbacks have run
    if out = .ok ∧ s.ledger.inflight ≠ [] then none
    else
      (s.path.step (.abort out.err?)).map fun path =>
        { path := path
          ledger := { s.ledger with staged := if out.ends then [] else s.ledger.staged } }
  | .commit out =>
    match s.path.coord.worker with
    | .saved id _ =>
      (s.path.step (.commit out)).map fun path =>
        { path := path
          ledger := { s.ledger with
            staged := if out.ends then [] else s.ledger.staged
            commits := s.ledger.commits ++ [(id, s.ledger.staged)] } }
    | _ => none
  | .deferredAbort =>
    if s.path.sink.pc = .returned then
      some { s with ledger := { s.ledger with staged := [] } }
    else none

end TxnRun

end Weibo
