import Weibo.ForStd.MarkedStream
import Weibo.ForStd.Transducer
import Weibo.Model.Coordinator
import Weibo.Model.Injector

/-!
# A coordinated pipeline over many runs

The exactly-once pipeline end to end: the barrier injector, the operators, the tap that registers
their state, the transactional sink, the coordinator with its finalize worker, the checkpoint
directory and the broker. The process may crash between any two steps, also while it recovers; the
directory and the broker survive. `step` takes one protocol step of one goroutine, so a list of
events is one interleaving of all of them over any number of runs.

The source, the operators and the formats of offsets and state are parameters
collected in `Pipeline`.  Its two laws are what recovery relies on: restoring
what was registered for a checkpoint resumes right after its barrier.
The bound on how many barriers' states are kept belongs to
`Weibo.Model.BarrierSnapshots` and is left out here.
-/

namespace Weibo

/-- What the engine runs: the input log, the operators as one deterministic transducer, and how
    offsets and operator state are written and read back. `offsets start pos` is what the injector
    registers when it has forwarded the records from `start`, where the run resumed, up to `pos`. -/
structure Pipeline (Rec Out σ Snap Blob : Type) where
  input : List Rec
  operators : Transducer σ Rec Out
  init : σ
  offsets : ℕ → ℕ → Blob
  restoreOffset : Blob → ℕ
  snapshot : σ → Snap
  restore : Snap → σ
  txnID : String
  restoreOffset_offsets : ∀ start pos, restoreOffset (offsets start pos) = pos
  restore_snapshot : ∀ s, restore (snapshot s) = s

/-- What a sink transaction holds: output records and checkpoint markers. -/
inductive TxnEntry (Out : Type) where
  | record (o : Out)
  | marker (id : String)
deriving DecidableEq, Repr

/-- The output record of an entry, if it is one. -/
def TxnEntry.record? {Out : Type} : TxnEntry Out → Option Out
  | .record o => some o
  | .marker _ => none

/-- The checkpoint marker of an entry, if it is one. -/
def TxnEntry.marker? {Out : Type} : TxnEntry Out → Option String
  | .record _ => none
  | .marker id => some id

/-- The broker: committed transactions in commit order and the transaction the current producer has
    open. -/
structure Broker (Out : Type) where
  committed : List (List (TxnEntry Out))
  txn : List (TxnEntry Out)

namespace Broker

variable {Out : Type}

/-- What a read-committed consumer of the output topic has seen. -/
def visible (b : Broker Out) : List Out := b.committed.flatten.filterMap TxnEntry.record?

/-- What a read-committed consumer of the marker topic has seen. -/
def markers (b : Broker Out) : List String := b.committed.flatten.filterMap TxnEntry.marker?

/-- The marker probe of recovery. -/
def wasCommitted (b : Broker Out) (id : String) : Bool := b.markers.contains id

/-- `EndTransaction` with `TryCommit`, then `BeginTransaction`. -/
def commit (b : Broker Out) : Broker Out := ⟨b.committed ++ [b.txn], []⟩

/-- A new producer with the same transactional id aborts what the old one left open. -/
def fence (b : Broker Out) : Broker Out := { b with txn := [] }

/-- Produce into the open transaction. -/
def produce (b : Broker Out) (e : TxnEntry Out) : Broker Out := { b with txn := b.txn ++ [e] }

/-- The position of the last committed barrier, the start of the log if no transaction has
    committed. -/
def lastCommitted (b : Broker Out) (barriers : String → Option ℕ) : ℕ :=
  ((b.markers.getLast?).bind barriers).getD 0

end Broker

/-- The memory of a running process. -/
structure Running (Rec Out σ Snap Blob : Type) where
  /-- The input position this run resumed from. -/
  start : ℕ
  runNonce : ℕ
  checkpointID : ℕ
  phase : InjectPhase
  /-- How many records of the log have been forwarded. -/
  pos : ℕ
  opsIn : List (Item Rec String)
  opState : σ
  /-- State delivered by the operators as barriers passed them. -/
  barrierSnaps : String → Option Snap
  tapIn : List (Item Out String)
  sinkIn : List (Item Out String)
  /-- The barrier on which the sink's `Write` loop is blocked. -/
  waiting : Option String
  coord : Coordinator Snap Blob

/-- Where the process is. All but `running` is `resolveCoordinatedRecovery`, cut at each call it
    makes. -/
inductive Phase (Rec Out σ Snap Blob : Type) where
  | down
  | resolving (latest : CheckpointData Snap Blob)
  | promoting (latest : CheckpointData Snap Blob)
  | aborting (latest : CheckpointData Snap Blob)
  | discarded
  | selected (cp : Option (CheckpointData Snap Blob))
  | running (r : Running Rec Out σ Snap Blob)

/-- Everything: the directory and the broker survive a crash, the phase does not. `nonces` are the
    start times used so far and `barriers` records for every injected barrier how many input records
    are ahead of it; no step reads `barriers`. -/
structure World (Rec Out σ Snap Blob : Type) where
  storage : FileStorage Snap Blob
  broker : Broker Out
  nonces : List ℕ
  barriers : String → Option ℕ
  phase : Phase Rec Out σ Snap Blob

/-- One step of one goroutine, of recovery, or a crash. -/
inductive Event where
  | crash
  | load
  | probe
  | promote
  | abort
  | fallback
  | start (runNonce : ℕ)
  | forward
  | barrier (kind : BarrierKind)
  | operate
  | tap
  | write
  | finalize
  | save
  | commit
  | complete
  | close
deriving DecidableEq, Repr

namespace Pipeline

variable {Rec Out σ Snap Blob : Type} (P : Pipeline Rec Out σ Snap Blob)

/-- The memory of a process that starts from the selected checkpoint. -/
def boot (cp : Option (CheckpointData Snap Blob)) (runNonce : ℕ) :
    Running Rec Out σ Snap Blob :=
  let start := ((cp.bind CheckpointData.source).map P.restoreOffset).getD 0
  { start := start
    runNonce := runNonce
    checkpointID := 0
    phase := .running
    pos := start
    opsIn := []
    opState := ((cp.bind CheckpointData.operators).map P.restore).getD P.init
    barrierSnaps := fun _ => none
    tapIn := []
    sinkIn := []
    waiting := none
    coord := .new P.txnID }

/-- The injector forwards the next record of the log. -/
def forward (r : Running Rec Out σ Snap Blob) : Option (Running Rec Out σ Snap Blob) :=
  if r.phase = .done then none
  else (P.input[r.pos]?).map fun a => { r with opsIn := r.opsIn ++ [.data a], pos := r.pos + 1 }

/-- The injector registers the aligned offsets and forwards a barrier. -/
def injectBarrier (r : Running Rec Out σ Snap Blob) (kind : BarrierKind) :
    Option (String × Running Rec Out σ Snap Blob) :=
  if r.phase = .running then
    let id := mkID r.runNonce (r.checkpointID + 1) kind
    some (id, { r with
      checkpointID := r.checkpointID + 1
      phase := .after kind
      -- the offsets are registered before the barrier can reach anyone
      coord := r.coord.onBarrierInjected id (P.offsets r.start r.pos)
      opsIn := r.opsIn ++ [.marker id] })
  else none

/-- The operators take one element. A barrier delivers their state and passes through. -/
def operate (r : Running Rec Out σ Snap Blob) : Option (Running Rec Out σ Snap Blob) :=
  match r.opsIn with
  | .data a :: rest =>
    -- the operators do not see which checkpoint a record belongs to
    let out := P.operators.step r.opState a
    some { r with opsIn := rest, opState := out.1, tapIn := r.tapIn ++ out.2.map .data }
  | .marker id :: rest =>
    some { r with
      opsIn := rest
      barrierSnaps := Function.update r.barrierSnaps id (some (P.snapshot r.opState))
      tapIn := r.tapIn ++ [.marker id] }
  | [] => none

/-- `barrierDetect` forwards one element; the state of a barrier is registered with the coordinator
    before the barrier is passed on. -/
def tap (r : Running Rec Out σ Snap Blob) : Option (Running Rec Out σ Snap Blob) :=
  match r.tapIn with
  | .data o :: rest => some { r with tapIn := rest, sinkIn := r.sinkIn ++ [.data o] }
  | .marker id :: rest =>
    -- `collectSnapshots` takes the delivered state, else it snapshots live
    let snap := (r.barrierSnaps id).getD (P.snapshot r.opState)
    some { r with
      tapIn := rest
      barrierSnaps := Function.update r.barrierSnaps id none
      coord := r.coord.onStateSnapshot id snap
      sinkIn := r.sinkIn ++ [.marker id] }
  | [] => none

/-- The sink's `Write` loop takes one element. On a barrier it produces the marker, acknowledges and
    blocks. -/
def write (b : Broker Out) (r : Running Rec Out σ Snap Blob) :
    Option (Broker Out × Running Rec Out σ Snap Blob) :=
  if r.waiting = none then
    match r.sinkIn with
    | .data o :: rest => some (b.produce (.record o), { r with sinkIn := rest })
    | .marker id :: rest =>
      some (b.produce (.marker id),
        { r with sinkIn := rest, waiting := some id, coord := r.coord.onSinkPrepared id none })
    | [] => none
  else none

/-- The finalize worker saves the checkpoint as prepared. -/
def save (fs : FileStorage Snap Blob) (r : Running Rec Out σ Snap Blob) :
    Option (FileStorage Snap Blob × Running Rec Out σ Snap Blob) :=
  match r.coord.worker with
  | .taken id p =>
    some (fs.save (r.coord.preparedData id p), { r with coord := { r.coord with worker := .saved id p } })
  | _ => none

/-- The finalize worker commits the sink transaction, which unblocks `Write`. -/
def commitSink (b : Broker Out) (r : Running Rec Out σ Snap Blob) :
    Option (Broker Out × Running Rec Out σ Snap Blob) :=
  match r.coord.worker with
  | .saved id p =>
    some (b.commit, { r with
        -- `signal` closes the channel of this id only
        waiting := if r.waiting = some id then none else r.waiting
        coord := { r.coord with worker := .committed id p } })
  | _ => none

/-- The finalize worker promotes the checkpoint and is done with it. -/
def complete (fs : FileStorage Snap Blob) (r : Running Rec Out σ Snap Blob) :
    Option (FileStorage Snap Blob × Running Rec Out σ Snap Blob) :=
  match r.coord.worker with
  | .committed id _ =>
    (fs.updateStatus id .completed).map fun fs' =>
      (fs', { r with coord := { r.coord with worker := .idle } })
  | _ => none

/-- The sink's `Write` returns at the end of its input, after the injector has returned and
    everything it forwarded has been consumed. Output after the last barrier belongs to no
    checkpoint: the open transaction is aborted. -/
def close (b : Broker Out) (r : Running Rec Out σ Snap Blob) :
    Option (Broker Out × Running Rec Out σ Snap Blob) :=
  if r.phase ≠ .running ∧ r.opsIn.isEmpty ∧ r.tapIn.isEmpty ∧ r.sinkIn.isEmpty ∧
      r.waiting = none then
    some (b.fence, { r with phase := .done })
  else none

/-- A step of the running process; `none` in every other phase. -/
def onRunning (w : World Rec Out σ Snap Blob)
    (f : Running Rec Out σ Snap Blob → Option (World Rec Out σ Snap Blob)) :
    Option (World Rec Out σ Snap Blob) :=
  match w.phase with
  | .running r => f r
  | _ => none

theorem onRunning_some {w w' : World Rec Out σ Snap Blob}
    {f : Running Rec Out σ Snap Blob → Option (World Rec Out σ Snap Blob)}
    (h : onRunning w f = some w') : ∃ r, w.phase = .running r ∧ f r = some w' := by
  unfold onRunning at h
  split at h
  · rename_i r hphase
    exact ⟨r, hphase, h⟩
  · simp at h

/-- One event of the world; `none` when it is not enabled. -/
def step (w : World Rec Out σ Snap Blob) : Event → Option (World Rec Out σ Snap Blob)
  | .crash => some { w with phase := .down }
  | .load =>
    match w.phase with
    | .down =>
      match w.storage.load with
      -- no checkpoint at all: a fresh start
      | none => some { w with phase := .selected none }
      | some d =>
        if d.completed then some { w with phase := .selected (some d) }
        else some { w with phase := .resolving d }
    | _ => none
  | .probe =>
    match w.phase with
    | .resolving d =>
      if w.broker.wasCommitted d.id then some { w with phase := .promoting d }
      else some { w with phase := .aborting d }
    | _ => none
  | .promote =>
    match w.phase with
    | .promoting d =>
      (w.storage.updateStatus d.id .completed).map fun fs =>
        { w with storage := fs, phase := .selected (some { d with status := .completed }) }
    | _ => none
  | .abort =>
    -- the sink is not running yet, so `Abort` leaves the transaction to fencing
    match w.phase with
    | .aborting _ => some { w with phase := .discarded }
    | _ => none
  | .fallback =>
    match w.phase with
    | .discarded => some { w with phase := .selected w.storage.loadLatestCompleted }
    | _ => none
  | .start runNonce =>
    match w.phase with
    | .selected cp =>
      -- the nonce is the start time of the process, so no two runs share one
      if runNonce ∈ w.nonces then none
      else some { w with
        -- initialising the producer aborts what an earlier run left open
        broker := w.broker.fence
        nonces := runNonce :: w.nonces
        phase := .running (P.boot cp runNonce) }
    | _ => none
  | .forward => onRunning w fun r => (P.forward r).map fun r' => { w with phase := .running r' }
  | .barrier kind =>
    onRunning w fun r => (P.injectBarrier r kind).map fun (id, r') =>
      { w with barriers := Function.update w.barriers id (some r.pos), phase := .running r' }
  | .operate => onRunning w fun r => (P.operate r).map fun r' => { w with phase := .running r' }
  | .tap => onRunning w fun r => (P.tap r).map fun r' => { w with phase := .running r' }
  | .write =>
    onRunning w fun r => (write w.broker r).map fun (b, r') =>
      { w with broker := b, phase := .running r' }
  | .finalize =>
    onRunning w fun r => r.coord.finalizeBegin.map fun c =>
      { w with phase := .running { r with coord := c } }
  | .save =>
    onRunning w fun r => (save w.storage r).map fun (fs, r') =>
      { w with storage := fs, phase := .running r' }
  | .commit =>
    onRunning w fun r => (commitSink w.broker r).map fun (b, r') =>
      { w with broker := b, phase := .running r' }
  | .complete =>
    onRunning w fun r => (complete w.storage r).map fun (fs, r') =>
      { w with storage := fs, phase := .running r' }
  | .close =>
    onRunning w fun r => (close w.broker r).map fun (b, r') =>
      { w with broker := b, phase := .running r' }

/-- Before the first run: an empty directory and an empty topic. -/
def initial : World Rec Out σ Snap Blob :=
  ⟨.empty, ⟨[], []⟩, [], fun _ => none, .down⟩

/-- The operator state after the first `n` records of the log. -/
def stateAt (n : ℕ) : σ := P.operators.state P.init (P.input.take n)

/-- The output of the uninterrupted pipeline on the first `n` records. -/
def outputs (n : ℕ) : List Out := P.operators.outs P.init (P.input.take n)

end Pipeline

end Weibo
