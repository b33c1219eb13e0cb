import Weibo.Model.KafkaSource

/-!
# Partition manager (`source/kafka_partition_manager.go`, `source/kafka.go`)

In parallel mode a manager keeps one reader per discovered partition. It looks for partitions again
and again, cancels the readers of those that are gone and starts readers for those that appeared,
each in a goroutine of its own that fetches, tracks and emits until its context is cancelled.

Every action of the manager and of a reader is a step, in any order the scheduler
likes.  What the broker decides is part of the event: the partitions it lists,
where a partition's log begins and ends when a reader is opened, and the messages.
Of the client library it is assumed that a reader delivers messages of its
partition in the order of their offsets, from the offset it was opened at.
-/

namespace Weibo

/-- Where the goroutine of a reader is. -/
inductive ReaderPc where
  /-- In `fetchWithRetry`. -/
  | fetch
  /-- Before `offsets.track`. -/
  | track (msg : KafkaMessage)
  /-- In `emit`. -/
  | emit (record : Record)
  /-- Returned, and the reader closed. -/
  | done

def ReaderPc.isDone : ReaderPc → Bool
  | .done => true
  | _ => false

/-- A reader and its goroutine. -/
structure PartitionReader where
  partition : Int
  /-- The offset it reads on from. -/
  next : Int
  /-- Its own context is cancelled. -/
  cancelled : Bool
  pc : ReaderPc

/-- Where `run` is. -/
inductive ManagerPc where
  /-- In the select of `run`. -/
  | idle
  /-- In the first loop of `reconcile`. -/
  | stopping (desired : List Int)
  /-- In the second loop of `reconcile`. -/
  | starting (desired : List Int)
  /-- `run` has returned. -/
  | stopped
deriving DecidableEq

/-- A run of the source in parallel mode. -/
structure PartitionManager where
  source : KafkaSource
  /-- The map from partitions to their readers. -/
  running : List (Int × ℕ)
  /-- All readers that were ever started. -/
  readers : List PartitionReader
  pc : ManagerPc
  /-- The context of `run` is cancelled. -/
  ctxDone : Bool
  /-- A reader has failed. -/
  fatal : Bool
  /-- The records sent to the output channel. -/
  out : List Record

namespace PartitionManager

/-- `run` starts by reconciling to the partitions found when the source was made. -/
def start (source : KafkaSource) (seed : List Int) : PartitionManager where
  source := source
  running := []
  readers := []
  pc := .stopping seed
  ctxDone := false
  fatal := false
  out := []

inductive Event where
  /-- A tick: the partitions that are discovered. -/
  | discover (ids : List Int)
  /-- The reader of a partition that is gone is cancelled. -/
  | remove (id : Int)
  /-- No such reader is left. -/
  | removed
  /-- The next desired partition; `first` and `endOffset` are those of its log. -/
  | add (first endOffset : Int)
  /-- The context of `run` is cancelled. -/
  | interrupt
  /-- `run` returns. -/
  | finish
  /-- A reader gets a message. -/
  | fetch (i : ℕ) (msg : KafkaMessage)
  | track (i : ℕ)
  | emit (i : ℕ)
  /-- A reader sees that its context is cancelled. -/
  | exit (i : ℕ)
  /-- A reader has used up its retries. -/
  | fail (i : ℕ)

/-- The position a new reader of a partition is opened at: the restored offset, or the configured
    start offset. -/
def position (s : PartitionManager) (id first endOffset : Int) : Int :=
  let offset := (s.source.offsets.restoredOffset id).getD s.source.startOffset
  if offset = firstOffset then first
  else if offset = lastOffset then endOffset
  else offset

/-- Build and launch one partition reader. -/
def startReader (s : PartitionManager) (id first endOffset : Int) : PartitionManager :=
  { s with
    running := s.running ++ [(id, s.readers.length)]
    readers := s.readers ++ [⟨id, s.position id first endOffset, false, .fetch⟩] }

/-- Move one reader on. -/
def setReader (s : PartitionManager) (i : ℕ) (r : PartitionReader) : PartitionManager :=
  { s with readers := s.readers.set i r }

/-- A step of the manager. -/
def manage (s : PartitionManager) : Event → Option PartitionManager
  | .discover ids => if s.pc = .idle then some { s with pc := .stopping ids } else none
  | .remove id =>
    match s.pc, s.running.lookup id with
    | .stopping desired, some i =>
      if id ∈ desired then none
      else s.readers[i]?.map fun r =>
        { s.setReader i { r with cancelled := true } with
          running := s.running.filter fun entry => entry.1 ≠ id }
    | _, _ => none
  | .removed =>
    match s.pc with
    | .stopping desired =>
      if ∀ entry ∈ s.running, entry.1 ∈ desired then some { s with pc := .starting desired }
      else none
    | _ => none
  | .add first endOffset =>
    match s.pc with
    | .starting [] => some { s with pc := .idle }
    | .starting (id :: rest) =>
      if (s.running.lookup id).isSome then some { s with pc := .starting rest }
      else some { s.startReader id first endOffset with pc := .starting rest }
    | _ => none
  | .finish =>
    -- the deferred `cancel` and `stopAll`
    if s.pc = .idle ∧ (s.ctxDone ∨ s.fatal) then
      some { s with pc := .stopped, ctxDone := true, running := [] }
    else none
  | _ => none

/-- A step of the goroutine of a reader. -/
def read (s : PartitionManager) (i : ℕ) (r : PartitionReader) : Event → Option PartitionManager
  | .fetch _ msg =>
    match r.pc with
    | .fetch =>
      if msg.partition = r.partition ∧ r.next ≤ msg.offset then
        some (s.setReader i { r with next := msg.offset + 1, pc := .track msg })
      else none
    | _ => none
  | .track _ =>
    match r.pc with
    | .track msg =>
      -- a message that is dropped is tracked all the same
      let pc := match s.source.toRecord msg with
        | none => .fetch
        | some record => .emit record
      some { s.setReader i { r with pc } with
        source := { s.source with
          offsets := s.source.offsets.track msg.partition msg.offset } }
    | _ => none
  | .emit _ =>
    match r.pc with
    | .emit record =>
      some { s.setReader i { r with pc := .fetch } with out := s.out ++ [record] }
    | _ => none
  | .exit _ =>
    match r.pc with
    | .fetch | .emit _ =>
      if r.cancelled ∨ s.ctxDone then some (s.setReader i { r with pc := .done }) else none
    | _ => none
  | .fail _ =>
    match r.pc with
    | .fetch =>
      if r.cancelled ∨ s.ctxDone then none
      else some { s.setReader i { r with pc := .done } with fatal := true }
    | _ => none
  | _ => none

def step (s : PartitionManager) (e : Event) : Option PartitionManager :=
  match e with
  | .interrupt => some { s with ctxDone := true }
  | .fetch i _ | .track i | .emit i | .exit i | .fail i =>
    s.readers[i]?.bind fun r => s.read i r e
  | _ => s.manage e

/-- The offsets delivered for a partition, in order. -/
def delivered (s : PartitionManager) (p : Int) : List Int :=
  (s.out.filter fun r => r.partition = p).map Record.offset

end PartitionManager

end Weibo
