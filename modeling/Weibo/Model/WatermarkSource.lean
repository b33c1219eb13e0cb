import Weibo.Model.Plan

/-!
# The watermark source (`source/watermark.go`, `watermark/bounded.go`)

`WatermarkSource` wraps a source: it forwards every record, tells a generator about its timestamp
and asks the generator for a watermark on every tick of an interval. When the run is cancelled or
the wrapped source has ended, it sends one last watermark, far in the future, and returns.

`EventTimeRun` is a watermark source in front of the barrier injector and a
plan.  The source and the injector both watch the context, each in a `select`
that picks any of the cases that are ready, so how cancellation and the last
watermark interleave with the injector's barriers is up to the schedule.  A run
without checkpoints is one without barriers.  Each record that a clone of a keyed
stage takes is logged.
-/

namespace Weibo

/-! ## The generator -/

/-- The highest timestamp seen so far, and by how much a record may be late. -/
structure BoundedOutOfOrderness where
  maxTimestamp : Int
  allowedLateness : Int

namespace BoundedOutOfOrderness

/-- A generator that has seen no record. -/
def new (allowedLateness : Int) : BoundedOutOfOrderness := ⟨zeroTime, allowedLateness⟩

/-- Follow the timestamp of a record. -/
def onRecord (g : BoundedOutOfOrderness) (timestamp : Int) : BoundedOutOfOrderness :=
  if g.maxTimestamp < timestamp then { g with maxTimestamp := timestamp } else g

/-- The current watermark, the zero time before the first record. -/
def getWatermark (g : BoundedOutOfOrderness) : Int :=
  if g.maxTimestamp = zeroTime then zeroTime else g.maxTimestamp - g.allowedLateness

end BoundedOutOfOrderness

/-! ## The source -/

/-- The time of the last watermark: the start of the year 9999. -/
def maxWatermark : Int := 253370764800000000000

/-- Where `WatermarkSource.Run` is: in its main `select`, about to send a record or a watermark, in
    `emitMaxWatermark`, or returned. -/
inductive SourcePhase where
  | selecting
  | forwarding (r : Record)
  | ticking (wm : Int)
  | finishing
  | returned
deriving DecidableEq

/-- The generator and the position of `Run`. -/
structure WatermarkSource where
  generator : BoundedOutOfOrderness
  phase : SourcePhase

/-! ## What clones take -/

/-- A record that a clone took from its channel, and whether a window operator dropped it because it
    was late. -/
structure Taken where
  stage : ℕ
  worker : ℕ
  clone : ℕ
  record : Record
  late : Bool
deriving DecidableEq

/-- Whether an operator drops a data record as late: a window operator does if the record is below
    its current watermark. -/
def dropsLate (c : OperatorCell) (r : Record) : Bool :=
  match c.machine.observe c.state with
  | some (.window currentWatermark _) =>
    r.isData && currentWatermark != zeroTime && decide (r.timestamp < currentWatermark)
  | _ => false

/-- What an operator takes next. -/
def nextTaken (c : OperatorCell) : Option Record :=
  if c.closed then none else c.inbox.head?

/-- What a clone takes in a step of its stage. -/
def taken (stages : List Stage) (i : ℕ) : StageEvent → List Taken
  | .inr (.branch w (k, .take _)) =>
    match stages[i]? with
    | some (.inr f) =>
      if h : w < f.n then
        match (f.branch ⟨w, h⟩)[k]? with
        | some c => ((nextTaken c).map fun r => ⟨i, w, k, r, dropsLate c r⟩).toList
        | none => []
      else []
    | _ => []
  | _ => []

/-! ## The run -/

/-- A watermark source, the injector and a plan. `pending` is what the wrapped source has still to
    emit, `received` what the watermark source has got of it, and `sourceCh` the channel between the
    watermark source and the injector. -/
structure EventTimeRun where
  pending : List Record
  received : List Record
  source : WatermarkSource
  cancelled : Bool
  sourceCh : List Record
  run : CutRun
  log : List Taken

namespace EventTimeRun

/-- A step of the context, of the watermark source, of the injector or of a stage. `ctxDone` is the
    watermark source noticing that the context is cancelled, `giveUp` the time limit of
    `emitMaxWatermark`. -/
inductive Event where
  | cancel
  | record
  | tick
  | exhausted
  | ctxDone
  | send
  | giveUp
  | forward
  | barrier (kind : BarrierKind)
  | stage (i : ℕ) (e : StageEvent)

/-- The start of a run over the given input. -/
def initial {tf : TimeFormat} (allowedLateness : Int) (runNonce : ℕ) (plan : List (StageSpec tf))
    (input : List Record) : EventTimeRun where
  pending := input
  received := []
  source := ⟨.new allowedLateness, .selecting⟩
  cancelled := false
  sourceCh := []
  run := .initial runNonce plan
  log := []

/-- The watermark source moves on. -/
def goto (s : EventTimeRun) (phase : SourcePhase) : EventTimeRun :=
  { s with source := { s.source with phase := phase } }

/-- The watermark source sends a record and moves on. -/
def emit (s : EventTimeRun) (r : Record) (phase : SourcePhase) : EventTimeRun :=
  { s.goto phase with sourceCh := s.sourceCh ++ [r] }

/-- When the injector injects a barrier of a kind. -/
def Injects (s : EventTimeRun) : BarrierKind → Prop
  | .periodic => True
  | .shutdown => s.cancelled = true
  -- the channel is closed and has been read to its end
  | .final => s.source.phase = .returned ∧ s.sourceCh = []

instance (s : EventTimeRun) (kind : BarrierKind) : Decidable (s.Injects kind) := by
  cases kind <;> unfold Injects <;> infer_instance

/-- One event; `none` when it is not enabled. -/
def step (s : EventTimeRun) : Event → Option EventTimeRun
  | .cancel => some { s with cancelled := true }
  | .record =>
    match s.source.phase, s.pending with
    | .selecting, r :: rest =>
      some { s with
        pending := rest
        received := s.received ++ [r]
        source := ⟨s.source.generator.onRecord r.timestamp, .forwarding r⟩ }
    | _, _ => none
  | .tick =>
    match s.source.phase with
    | .selecting =>
      let wm := s.source.generator.getWatermark
      some (if wm = zeroTime then s else s.goto (.ticking wm))
    | _ => none
  | .exhausted =>
    match s.source.phase with
    -- a cancelled source ends early
    | .selecting => if s.pending = [] ∨ s.cancelled then some (s.goto .finishing) else none
    | _ => none
  | .ctxDone =>
    if s.cancelled then
      match s.source.phase with
      | .selecting => some (s.goto .finishing)
      | .forwarding _ => some (s.goto .finishing)
      | .ticking _ => some (s.goto .selecting)
      | _ => none
    else none
  | .send =>
    match s.source.phase with
    | .forwarding r => some (s.emit r .selecting)
    | .ticking wm => some (s.emit (Record.newWatermark wm) .selecting)
    | .finishing => some (s.emit (Record.newWatermark maxWatermark) .returned)
    | _ => none
  | .giveUp =>
    match s.source.phase with
    | .finishing => some (s.goto .returned)
    | _ => none
  | .forward =>
    match s.sourceCh with
    | r :: rest => (s.run.step (.forward r)).map fun run => { s with sourceCh := rest, run := run }
    | [] => none
  | .barrier kind =>
    if s.Injects kind then (s.run.step (.barrier kind)).map fun run => { s with run := run }
    else none
  | .stage i e =>
    (s.run.step (.stage i e)).map fun run =>
      { s with run := run, log := s.log ++ taken s.run.stages i e }

end EventTimeRun

end Weibo
