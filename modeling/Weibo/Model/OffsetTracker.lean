import Weibo.Model.Injector

/-!
# Source offsets over many runs

Three maps carry the position of a Kafka source: the source's own tracker
(`source/kafka_offset_tracker.go`), the map the injector keeps while it forwards
records, and the map saved with a checkpoint.  `OffsetRun` lets a pipeline run,
crash and restart any number of times, each run restoring the latest completed
checkpoint.
-/

namespace Weibo

/-- Per-partition progress of a Kafka source: `consumed` is the next offset to read, `restored` the
    position a reader seeks to at the start of a run. -/
structure OffsetTracker where
  consumed : Offsets
  restored : Offsets

namespace OffsetTracker

/-- A tracker without any progress. -/
def new : OffsetTracker := ⟨fun _ => none, fun _ => none⟩

/-- Advance past a consumed message. -/
def track (t : OffsetTracker) (partition offset : Int) : OffsetTracker :=
  { t with consumed := Function.update t.consumed partition (some (offset + 1)) }

/-- The position of every partition consumed so far. -/
def snapshot (t : OffsetTracker) : Offsets := t.consumed

/-- Load a checkpoint's offsets: each one is both a seek target and a seed of `consumed`. -/
def restore (t : OffsetTracker) (offsets : Offsets) : OffsetTracker :=
  { consumed := fun p => (offsets p).or (t.consumed p)
    restored := fun p => (offsets p).or (t.restored p) }

/-- The seek target of a partition. -/
def restoredOffset (t : OffsetTracker) (partition : Int) : Option Int := t.restored partition

end OffsetTracker

/-- What the injector registered for a barrier, and what had happened up to it: the offsets this run
    restored, the records it forwarded, and the partitions any run has consumed. -/
structure Registration where
  id : String
  offsets : Offsets
  restored : Offsets
  forwarded : List Record
  consumed : List Int

namespace Registration

/-- A partition the checkpoint has to cover. -/
def Covers (g : Registration) (p : Int) : Prop := p ∈ g.consumed ∨ (g.restored p).isSome

/-- The next offset not yet forwarded: the restored one if the partition was quiet in this run. -/
def next (g : Registration) (p : Int) : Option Int :=
  (nextForwarded g.forwarded p).or (g.restored p)

/-- Every partition to cover is registered with its next offset. -/
def Complete (g : Registration) : Prop :=
  ∀ p, g.Covers p → ∃ n, g.next p = some n ∧ g.offsets p = some n

end Registration

/-- A pipeline over many runs. `pending` holds the offsets registered per checkpoint, `inFlight` the
    barriers on their way to the sink; the last three fields are history that no step reads. -/
structure OffsetRun where
  saved : Option Offsets
  running : Bool
  tracker : OffsetTracker
  sourceCh : List Record
  inj : Injector
  pending : String → Option Offsets
  inFlight : List String
  forwarded : List Record
  consumed : List Int
  registered : List Registration

namespace OffsetRun

/-- A step of the source, of the injector, of the checkpoint path, or a crash. -/
inductive Event where
  | crash
  | start (runNonce : ℕ)
  | emit (r : Record)
  | forward
  | barrier (kind : BarrierKind)
  | save (id : String)

/-- Before the first run. -/
def initial : OffsetRun :=
  { saved := none, running := false, tracker := .new, sourceCh := [], inj := .start 0,
    pending := fun _ => none, inFlight := [], forwarded := [], consumed := [], registered := [] }

/-- What this run restored. -/
def restored (s : OffsetRun) : Offsets := s.tracker.restored

/-- Barrier injection: the aligned offsets are registered under the new id and the barrier is
    forwarded. -/
def injectBarrier (s : OffsetRun) (kind : BarrierKind) : OffsetRun :=
  let id := s.inj.nextID kind
  { s with
    inj := s.inj.barrier kind
    pending := Function.update s.pending id (some s.inj.offsets)
    inFlight := s.inFlight ++ [id]
    registered := s.registered ++ [⟨id, s.inj.offsets, s.restored, s.forwarded, s.consumed⟩] }

/-- One event; `none` when it is not enabled. -/
def step (s : OffsetRun) : Event → Option OffsetRun
  | .crash => some { s with running := false }
  | .start runNonce =>
    if s.running then none
    else some { s with
      running := true
      -- a new source, seeded with the checkpoint's offsets if there is one
      tracker := match s.saved with
        | some offsets => OffsetTracker.new.restore offsets
        | none => .new
      sourceCh := []
      inj := .start runNonce
      pending := fun _ => none
      inFlight := []
      forwarded := [] }
  | .emit r =>
    if s.running then
      some { s with
        -- the tracker runs ahead of the injector by what is in the channel
        tracker := if r.isData then s.tracker.track r.partition r.offset else s.tracker
        sourceCh := s.sourceCh ++ [r] }
    else none
  | .forward =>
    match s.running, s.sourceCh with
    | true, r :: rest =>
      if s.inj.phase = .done then none
      else some { s with
        sourceCh := rest
        inj := s.inj.track r
        forwarded := s.forwarded ++ [r]
        consumed := if r.isData then r.partition :: s.consumed else s.consumed }
    | _, _ => none
  | .barrier kind =>
    if s.running ∧ s.inj.phase = .running then some (s.injectBarrier kind) else none
  | .save id =>
    if s.running ∧ id ∈ s.inFlight then
      -- the aligned offsets if they were registered, else the live position
      some { s with
        saved := some ((s.pending id).getD s.tracker.snapshot)
        pending := Function.update s.pending id none
        inFlight := s.inFlight.erase id }
    else none

/-- Every checkpoint registered so far covers every partition. -/
def AllComplete (s : OffsetRun) : Prop := ∀ g ∈ s.registered, g.Complete

/-- A barrier is injected only after every partition it has to cover has delivered a data record in
    this run. -/
def AllBusy (s : OffsetRun) : Event → Prop
  | .barrier _ => ∀ p, p ∈ s.consumed ∨ (s.restored p).isSome →
      ∃ r ∈ s.forwarded, r.isData = true ∧ r.partition = p
  | _ => True

end OffsetRun

end Weibo
