import Weibo.ForStd.Run
import Weibo.Model.BatchWriter

/-!
# The sink stage over a batching sink (`pipeline/stage.go`, `SinkStage.Run`)

The stage pumps its input into a buffered channel which the sink's `Write` loop reads. In
uncoordinated mode it also saves the checkpoints: at a barrier it waits for the channel to become
empty and calls `OnBarrier`.

`SinkRun.step` interleaves the stage, the sink's loop, the flushes and the
cancellation of the hard context in any order.  The sinks in question are no
`CheckpointedSink`s, so barriers are dropped after the hook like watermarks.
Metrics are left out.
-/

namespace Weibo

/-- The capacity of the channel to the sink. -/
def internalBuf : Nat := 256

/-- A sink stage: the records that arrive on its input, whether `OnBarrier` is set, and the settings
    of the sink. -/
structure SinkRun (T : Type) where
  stream : List Record
  onBarrier : Bool := true
  sink : BatchWriter T

/-- Where the stage is. -/
inductive PumpPc where
  /-- At the head of the loop over the input. -/
  | receiving
  /-- Waiting for the channel to become empty before the barrier is reported. -/
  | aligning (r : Record)
  /-- The wait is over, `OnBarrier` is to be called. -/
  | hooking (r : Record)
  /-- At the `select` that sends a record. -/
  | sending (r : Record)
  /-- The channel is closed, waiting for `Write` to return. -/
  | awaiting
  | returned (err : Option String)
deriving DecidableEq

/-- A call of `OnBarrier`: the checkpoint, the number of records ahead of its barrier, and the
    entries of the flushes completed by then. -/
structure Save (T : Type) where
  checkpointID : String
  position : Nat
  flushed : List T

/-- The steps of the stage. -/
inductive PumpEvent where
  | recv
  /-- The condition of the wait is found false. -/
  | aligned
  /-- The poll interval passes. -/
  | timer
  | hook
  | send
  /-- Receive the result of `Write`. -/
  | sinkDone
  | hardDone
deriving DecidableEq, Repr

/-- Anything that can happen. -/
inductive SinkEvent where
  | stage (e : PumpEvent)
  | sink (e : WriterEvent)
  | cancel

namespace SinkRun

variable {T : Type}

/-- The state of the stage and its sink. `position` is the number of records the stage is done
    with. -/
structure State (T : Type) where
  pc : PumpPc := .receiving
  position : Nat := 0
  pumping : Bool := true
  pumped : List Record := []
  closed : Bool := false
  cancelled : Bool := false
  writer : Writer T := {}
  saves : List (Save T) := []

namespace State

/-- Go on with the next record. -/
def next (s : State T) : State T := { s with pc := .receiving, position := s.position + 1 }

/-- Drop a marker, send anything else. -/
def forward (s : State T) (r : Record) : State T :=
  if r.isWatermark || r.isBarrier then s.next else { s with pc := .sending r }

/-- The result of `Write`, once it has returned. -/
def sinkResult (s : State T) : Option (Option String) :=
  match s.writer.pc with
  | .returned err => some err
  | _ => none

end State

/-- One step of the stage. -/
def stageStep (k : SinkRun T) (s : State T) : PumpEvent → Option (State T)
  | .recv =>
    match s.pc, k.stream[s.position]? with
    -- the input is closed, and with it the channel to the sink
    | .receiving, none => some { s with pc := .awaiting, closed := true }
    | .receiving, some r =>
      -- forced shutdown: discard while upstream unwinds
      if !s.pumping then some s.next
      else if r.isBarrier && k.onBarrier then some { s with pc := .aligning r }
      else some (s.forward r)
    | _, _ => none
  | .aligned =>
    match s.pc, s.pumped with
    | .aligning r, [] => some { s with pc := .hooking r }
    | _, _ => none
  | .timer =>
    match s.pc, s.pumped with
    -- 200 microseconds later the channel is looked at again
    | .aligning _, _ :: _ => some s
    | _, _ => none
  | .hook =>
    match s.pc with
    | .hooking r =>
      -- what the destination has by now is all that survives a crash
      let save : Save T := ⟨r.checkpointID, s.position, s.writer.flushed⟩
      some (State.forward { s with saves := s.saves ++ [save] } r)
    | _ => none
  | .send =>
    match s.pc with
    | .sending r =>
      if s.pumped.length < internalBuf then
        some (State.next { s with pumped := s.pumped ++ [r] })
      else none
    | _ => none
  | .sinkDone =>
    match s.pc, s.pumped, s.sinkResult with
    | .aligning _, _ :: _, some err => some { s with pc := .returned err }
    | .sending _, _, some err => some { s with pc := .returned err }
    | .awaiting, _, some err => some { s with pc := .returned err }
    | _, _, _ => none
  | .hardDone =>
    match s.pc, s.pumped, s.cancelled with
    | .aligning _, _ :: _, true => some (State.next { s with pumping := false })
    | .sending _, _, true => some (State.next { s with pumping := false })
    | _, _, _ => none

/-- One step of the stage, of the sink, or of the environment. -/
def step (k : SinkRun T) (s : State T) : SinkEvent → Option (State T)
  | .stage e => k.stageStep s e
  | .sink e =>
    (s.writer.step k.sink s.cancelled s.closed s.pumped e).map fun x =>
      { s with writer := x.1, pumped := x.2 }
  | .cancel => some { s with cancelled := true }

/-- The entry the sink has to write for a record: none for a marker, and none for a record it
    skips. -/
def entry (k : SinkRun T) (r : Record) : Option T :=
  if r.isMarker then none else k.sink.convert r

/-- The entries of the first records of the stream. -/
def ahead (k : SinkRun T) (position : Nat) : List T :=
  (k.stream.take position).filterMap k.entry

/-- Every record ahead of the barrier was in a completed flush when the checkpoint was saved. -/
def Handed (k : SinkRun T) (save : Save T) : Prop :=
  (k.ahead save.position).Subperm save.flushed

/-- No checkpoint was saved too early. -/
def AllHanded (k : SinkRun T) (s : State T) : Prop := ∀ save ∈ s.saves, k.Handed save

/-- `OnBarrier` is called only when the sink holds nothing back. -/
def HookSettled (k : SinkRun T) (s : State T) (e : SinkEvent) : Prop :=
  e = .stage .hook → s.writer.Settled k.sink

end SinkRun

end Weibo
