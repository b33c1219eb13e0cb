import Weibo.Model.OffsetTracker

/-!
# Where a Kafka source starts reading (`source/kafka*.go`)

A Kafka source reads in one of two modes. In serial mode one reader of a consumer group reads all
partitions; the broker tells it where to start. In parallel mode every partition has a reader of its
own, which is moved to the offset restored for the partition, if there is one.

Of the client library the following is assumed: a group reader starts at the
group's committed offset, and at the configured start offset if there is none; a
partition reader starts where `SetOffset` put it; messages come in the order of
their offsets.
-/

namespace Weibo

/-- A message of a partition. -/
structure KafkaMessage where
  partition : Int
  offset : Int
  key : Bytes := []
  value : Bytes := []
  time : Int := 0
  headers : List (String × Bytes) := []

/-- The record a message is mapped to; of repeated headers the last one counts. -/
def kafkaToRecord (msg : KafkaMessage) : Record where
  key := msg.key
  value := msg.value
  timestamp := msg.time
  offset := msg.offset
  partition := msg.partition
  headers := msg.headers.foldl (fun h x => h.insert x.1 x.2) ∅

/-- `kafka.FirstOffset`, what `OffsetEarliest` maps to. -/
def firstOffset : Int := -2

/-- `kafka.LastOffset`, what `OffsetLatest` maps to. -/
def lastOffset : Int := -1

/-- A partition's log: the messages it holds in ascending order, the offset it starts at and the
    offset it ended at when the reader started. -/
structure PartitionLog where
  first : Int
  endOffset : Int
  messages : List KafkaMessage
  sorted : messages.Pairwise fun a b => a.offset < b.offset
  nonneg : ∀ m ∈ messages, 0 ≤ m.offset

namespace PartitionLog

/-- The position an offset stands for. -/
def position (log : PartitionLog) (offset : Int) : Int :=
  if offset = firstOffset then log.first
  else if offset = lastOffset then log.endOffset
  else offset

/-- What a reader at a position fetches, in order. -/
def fetchFrom (log : PartitionLog) (pos : Int) : List KafkaMessage :=
  log.messages.filter fun m => pos ≤ m.offset

end PartitionLog

/-- The broker: the logs, and the offsets committed by the source's group. -/
structure KafkaBroker where
  log : Int → Option PartitionLog
  committed : Offsets

/-- A Kafka source. The deserializer matters here only by whether it accepts a message; if it does
    not, the message is dropped. -/
structure KafkaSource where
  parallel : Bool
  startOffset : Int
  deserializer : Option (Bytes → GoMap Bytes → Bool)
  offsets : OffsetTracker

namespace KafkaSource

/-- Load a checkpoint's offsets. -/
def restoreOffset (k : KafkaSource) (offsets : Offsets) : KafkaSource :=
  { k with offsets := k.offsets.restore offsets }

/-- The record of a message, unless it is dropped. -/
def toRecord (k : KafkaSource) (msg : KafkaMessage) : Option Record :=
  let record := kafkaToRecord msg
  match k.deserializer with
  | none => some record
  | some accepts => if accepts record.value record.headers then some record else none

theorem toRecord_eq {k : KafkaSource} {m : KafkaMessage} {r : Record} (h : k.toRecord m = some r) :
    r.partition = m.partition ∧ r.offset = m.offset := by
  dsimp only [toRecord] at h
  split at h
  · cases h
    exact ⟨rfl, rfl⟩
  · split at h <;> cases h
    exact ⟨rfl, rfl⟩

/-- The offset at which the reader of a partition is told to start. -/
def readerOffset (k : KafkaSource) (broker : KafkaBroker) (partition : Int) : Int :=
  -- `startReader` seeks; the group reader of serial mode never does
  if k.parallel then (k.offsets.restoredOffset partition).getD k.startOffset
  else (broker.committed partition).getD k.startOffset

/-- The records the source delivers for a partition, in order. -/
def delivered (k : KafkaSource) (broker : KafkaBroker) (partition : Int) : List Record :=
  match broker.log partition with
  | none => []
  | some log =>
    (log.fetchFrom (log.position (k.readerOffset broker partition))).filterMap k.toRecord

/-- With these offsets restored, the first record delivered for a partition in the map is the one at
    its restored offset. -/
def ResumesAt (k : KafkaSource) (broker : KafkaBroker) (offsets : Offsets) : Prop :=
  ∀ p r, offsets p = some r →
    ∀ rec ∈ ((k.restoreOffset offsets).delivered broker p).head?, rec.offset = r

/-- The log holds a message at the offset that the source does not drop. -/
def Holds (k : KafkaSource) (log : PartitionLog) (offset : Int) : Prop :=
  ∃ m ∈ log.messages, m.offset = offset ∧ (k.toRecord m).isSome

/-- Nothing is delivered from the position on. -/
def Silent (k : KafkaSource) (log : PartitionLog) (pos : Int) : Prop :=
  ∀ m ∈ log.messages, pos ≤ m.offset → k.toRecord m = none

/-- Reading from the position, the message at the offset is the first that is delivered. -/
def Reaches (k : KafkaSource) (log : PartitionLog) (pos offset : Int) : Prop :=
  k.Holds log offset ∧ pos ≤ offset ∧
    ∀ m ∈ log.messages, pos ≤ m.offset → (k.toRecord m).isSome → offset ≤ m.offset

end KafkaSource

/-! ## Fetching with retries -/

/-- A round of `fetchWithRetry`: the reader returns a message or an error. The context may be done
    when the error is looked at, or become done during the wait; then it has an error itself. -/
inductive FetchRound where
  | message (msg : KafkaMessage)
  | failed (err : String) (done doneWaiting : Option String)

/-- The wait after an attempt, in nanoseconds. -/
def fetchBackoff (attempt : ℕ) : Int64 :=
  -- the shift and the product wrap around before the limit is applied
  let backoff := Int64.ofBitVec (1#64 <<< attempt) * 1000000000
  if backoff > 30000000000 then 30000000000 else backoff

/-- The waits of the loop from an attempt on, and what it returns, if the rounds suffice. -/
def fetchLoop (maxRetries : ℤ) : ℕ → List FetchRound →
    List Int64 × Option (Except String KafkaMessage)
  | _, [] => ([], none)
  | _, .message msg :: _ => ([], some (.ok msg))
  | _, .failed _ (some done) _ :: _ => ([], some (.error done))
  | attempt, .failed err none doneWaiting :: rounds =>
    if maxRetries < 0 ∨ attempt < maxRetries then
      match doneWaiting with
      | some done => ([fetchBackoff attempt], some (.error done))
      | none =>
        let (waits, result) := fetchLoop maxRetries (attempt + 1) rounds
        (fetchBackoff attempt :: waits, result)
    else
      -- the last attempt; the loop ends without a wait
      ([], some (.error s!"kafka fetch failed after {maxRetries} retries: {err}"))

/-- Fetch a message; with a negative number of retries there is no last attempt. -/
def fetchWithRetry (maxRetries : ℤ) (rounds : List FetchRound) :
    List Int64 × Option (Except String KafkaMessage) :=
  fetchLoop maxRetries 0 rounds

end Weibo
