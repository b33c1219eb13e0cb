import Weibo.Model.Record

/-!
# The batching loop of the plain sinks (`sink/batch.go`)

The HTTP, Kafka, Postgres and S3 sinks convert records to entries of their own type, collect them in
a batch and flush the batch when it is full, at every tick of the flush interval and at the end. A
flush runs in the loop itself or, in asynchronous mode, in a goroutine of its own.

`Writer.step` is one step of `run` or of a flush it started.  Each `select` of
the loop is a program point at which several events are enabled; what a flush
returns is chosen by the environment.
-/

namespace Weibo

/-- The flush threshold of a sink that does not configure one. -/
def defaultBatchSize : Int := 100

/-- What an error of a cancelled context says. -/
def contextCanceled : String := "context canceled"

/-- The settings of a batch writer with entries of type `T`. -/
structure BatchWriter (T : Type) where
  batchSize : Int := 0
  flushInterval : Int := 0
  async : Bool := false
  /-- The entry of a record; `none` skips the record. -/
  convert : Record → Option T

/-- Whether a batch has reached the flush threshold. -/
def BatchWriter.full {T : Type} (b : BatchWriter T) (batch : List T) : Bool :=
  (if b.batchSize ≤ 0 then defaultBatchSize else b.batchSize) ≤ batch.length

/-- Why the loop ends: a background flush failed, the input was closed, or the context was
    cancelled. -/
inductive Ending where
  | failed (err : String)
  | closed
  | cancelled
deriving DecidableEq, Repr

/-- Where the loop is. -/
inductive WriterPc (T : Type) where
  /-- At the `select` of the main loop. -/
  | select
  /-- A record was received and is not in the batch yet. -/
  | adding (r : Record)
  /-- In a synchronous flush. -/
  | flushing (items : List T)
  /-- At the `select` of `drain`. -/
  | draining
  | drainAdding (r : Record)
  /-- In the synchronous flush that ends the loop. -/
  | lastFlush (ending : Ending) (items : List T)
  /-- At `wg.Wait()`; `err` is what the last flush returned. -/
  | waiting (ending : Ending) (err : Option String)
  | returned (err : Option String)

/-- The entries the loop itself holds outside the batch. -/
def WriterPc.held {T : Type} (b : BatchWriter T) : WriterPc T → List T
  | .adding r | .drainAdding r => (b.convert r).toList
  | .flushing items | .lastFlush _ items => items
  | _ => []

/-- The state of the loop. `running` holds the batches of the flush goroutines; `flushed` and
    `failed` collect the entries of the flushes that returned without and with an error. -/
structure Writer (T : Type) where
  pc : WriterPc T := .select
  batch : List T := []
  running : List (List T) := []
  errCh : Option String := none
  flushed : List T := []
  failed : List T := []

/-- The events of the loop and its flushes. -/
inductive WriterEvent where
  /-- Receive from `errCh`. -/
  | recvErr
  | ctxDone
  /-- Receive a record. -/
  | take
  /-- Receive from the closed and empty input. -/
  | inClosed
  | tick
  | add
  /-- The synchronous flush returns. -/
  | flushReturns (err : Option String)
  /-- The flush of a goroutine returns. -/
  | asyncReturns (i : Nat) (err : Option String)
  /-- The drain's deadline passes. -/
  | deadline
  /-- All flush goroutines are done. -/
  | wait

namespace Writer

variable {T : Type} (b : BatchWriter T)

/-- Hand the batch to a flush: go on at `next`, or at `inFlush` if the flush is synchronous. Nothing
    is flushed if the batch is empty. -/
def doFlush (w : Writer T) (next : WriterPc T) (inFlush : List T → WriterPc T) : Writer T :=
  if w.batch.isEmpty then { w with pc := next }
  else if b.async then { w with pc := next, batch := [], running := w.running ++ [w.batch] }
  else { w with pc := inFlush w.batch, batch := [] }

/-- Put a record into the batch. -/
def add (w : Writer T) (r : Record) : Writer T :=
  { w with batch := w.batch ++ (b.convert r).toList }

/-- Note what became of the entries of a flush. -/
def settle (w : Writer T) (items : List T) : Option String → Writer T
  | none => { w with flushed := w.flushed ++ items }
  | some _ => { w with failed := w.failed ++ items }

/-- What `run` returns after waiting for the flushes. Only the `failed` ending does not look at
    `errCh` again. -/
def result (w : Writer T) (err : Option String) : Ending → Option String
  | .failed e => some e
  | .closed => err.or w.errCh
  | .cancelled => (err.or w.errCh).or (some contextCanceled)

/-- One step of the loop. `cancelled` and `closed` tell of the context and the input, `input` holds
    the records waiting in the input channel; the step returns what is left of them. -/
def step (cancelled closed : Bool) (input : List Record) (w : Writer T) :
    WriterEvent → Option (Writer T × List Record)
  | .recvErr =>
    match w.pc, w.errCh with
    | .select, some err =>
      some ({ w with pc := .waiting (.failed err) none, errCh := none }, input)
    | _, _ => none
  | .ctxDone =>
    match w.pc, cancelled with
    | .select, true => some ({ w with pc := .draining }, input)
    | _, _ => none
  | .take =>
    match w.pc, input with
    | .select, r :: rest => some ({ w with pc := .adding r }, rest)
    | .draining, r :: rest => some ({ w with pc := .drainAdding r }, rest)
    | _, _ => none
  | .inClosed =>
    match w.pc, input, closed with
    | .select, [], true =>
      some (w.doFlush b (.waiting .closed none) (.lastFlush .closed), [])
    | .draining, [], true =>
      some (w.doFlush b (.waiting .cancelled none) (.lastFlush .cancelled), [])
    | _, _, _ => none
  | .tick =>
    match w.pc with
    | .select =>
      if 0 < b.flushInterval then some (w.doFlush b .select .flushing, input) else none
    | _ => none
  | .add =>
    match w.pc with
    | .adding r =>
      let w' := w.add b r
      -- a skipped record never triggers a flush
      if (b.convert r).isSome && b.full w'.batch then
        some (w'.doFlush b .select .flushing, input)
      else some ({ w' with pc := .select }, input)
    -- while draining, a full batch is not flushed
    | .drainAdding r => some ({ w.add b r with pc := .draining }, input)
    | _ => none
  | .flushReturns err =>
    match w.pc with
    | .flushing items =>
      -- a failed synchronous flush ends `run` at once
      some ({ w.settle items err with pc := if err.isSome then .returned err else .select }, input)
    | .lastFlush ending items =>
      some ({ w.settle items err with pc := .waiting ending err }, input)
    | _ => none
  | .asyncReturns i err =>
    match w.running[i]? with
    | some items =>
      -- the channel holds one error; a second one is dropped
      some ({ w.settle items err with
        running := w.running.eraseIdx i, errCh := w.errCh.or err }, input)
    | none => none
  | .deadline =>
    match w.pc with
    | .draining =>
      some (w.doFlush b (.waiting .cancelled none) (.lastFlush .cancelled), input)
    | _ => none
  | .wait =>
    match w.pc with
    | .waiting ending err =>
      if w.running.isEmpty then some ({ w with pc := .returned (w.result err ending) }, input)
      else none
    | _ => none

/-- Nothing that was taken from the input is outside a completed flush. -/
structure Settled (w : Writer T) : Prop where
  failed : w.failed = []
  running : w.running = []
  batch : w.batch = []
  held : w.pc.held b = []

end Writer

/-! ## The loop with its input and a record of its flushes -/

/-- The batch of the flush the loop itself is in. -/
def WriterPc.inFlush {T : Type} : WriterPc T → Option (List T)
  | .flushing items | .lastFlush _ items => some items
  | _ => none

/-- The entry of a record that was received and is not in the batch yet. -/
def WriterPc.incoming {T : Type} (b : BatchWriter T) : WriterPc T → List T
  | .adding r | .drainAdding r => (b.convert r).toList
  | _ => []

/-- The calls of `flush` that have not returned. A new call comes last. -/
def Writer.calls {T : Type} (w : Writer T) : List (List T) :=
  w.running ++ w.pc.inFlush.toList

/-- The call of `flush` that returns with an event, and its result. -/
def Writer.returning {T : Type} (w : Writer T) : WriterEvent → List (List T × Option String)
  | .flushReturns err => w.pc.inFlush.toList.map fun items => (items, err)
  | .asyncReturns i err => (w.running[i]?).toList.map fun items => (items, err)
  | _ => []

/-- A batch writer with the channel it reads and the context it runs under. `received` lists the
    records taken from the channel, `begun` the batches passed to `flush` in the order of the calls,
    and `ended` the calls that have returned with their results; no step reads these three. -/
structure BatchRun (T : Type) where
  writer : Writer T := {}
  input : List Record := []
  closed : Bool := false
  cancelled : Bool := false
  received : List Record := []
  begun : List (List T) := []
  ended : List (List T × Option String) := []

/-- What can happen: the other end of the channel sends or closes, the context is cancelled, or the
    loop or one of its flushes takes a step. -/
inductive BatchEvent where
  | send (r : Record)
  | close
  | cancel
  | loop (e : WriterEvent)

/-- One event; `none` when it is not enabled. -/
def BatchRun.step {T : Type} (b : BatchWriter T) (s : BatchRun T) :
    BatchEvent → Option (BatchRun T)
  | .send r => if s.closed then none else some { s with input := s.input ++ [r] }
  | .close => if s.closed then none else some { s with closed := true }
  | .cancel => some { s with cancelled := true }
  | .loop e =>
    (s.writer.step b s.cancelled s.closed s.input e).map fun next =>
      { s with
        writer := next.1
        input := next.2
        received := s.received ++ s.input.take (s.input.length - next.2.length)
        -- of the open calls, those beyond the old ones are new
        begun := s.begun ++ next.1.calls.drop s.writer.calls.length
        ended := s.ended ++ s.writer.returning e }

/-- Every entry made from a received record was in exactly one flush, and every flush has returned
    without an error. -/
structure BatchRun.Delivered {T : Type} (b : BatchWriter T) (s : BatchRun T) : Prop where
  /-- The batches, in the order of the calls, are the entries in arrival order. -/
  begun : s.begun.flatten = s.received.filterMap b.convert
  /-- Every call has returned. -/
  ended : (s.ended.map Prod.fst).Perm s.begun
  ok : ∀ call ∈ s.ended, call.2 = none
  /-- Synchronous flushes return in the order they were called. -/
  sync : b.async = false → (s.ended.map Prod.fst).flatten = s.received.filterMap b.convert

end Weibo
