import Weibo.ForStd.Chan
import Weibo.ForStd.Run
import Weibo.Model.Record

/-!
# The aligned merge (`pipeline/markers.go`)

`alignedMerge` starts one forwarding goroutine per worker output. It moves the worker's records into
the channel `fanIn` and parks after a marker until it gets a token on its `resume` channel. One more
goroutine closes `fanIn` when all forwarders have returned. The merge loop reads `fanIn`: data is
sent on at once, a marker when its last copy has arrived, and then every forwarder gets a token.

Every channel has a capacity of its own.  In the source `fanIn` and the worker
outputs hold `internalBuf` records and each `resume` channel holds one token.
The hard context never fires here, and whoever reads `out` is always ready.
-/

namespace Weibo

/-- Where a forwarding goroutine is: at `range c`, at `fanIn <- r`, waiting for its token, or
    returned. -/
inductive ForwarderPc where
  | receiving
  | sending (r : Record)
  | parked
  | done
deriving DecidableEq

/-- The record a forwarder has taken and not put into `fanIn` yet. -/
def ForwarderPc.inHand : ForwarderPc → List Record
  | .sending r => [r]
  | _ => []

/-- Where the merge loop is: at `fanIn` with the copies of the current marker counted, sending a
    record to `out`, handing out tokens, or returned. -/
inductive MergeLoop (n : ℕ) where
  | receiving (arrived : ℕ)
  | sending (w : Fin n) (r : Record) (arrived : ℕ)
  | resuming (next : ℕ)
  | returned (arrived : ℕ)

/-- Whether the loop stands at `fanIn`. -/
def MergeLoop.isReceiving {n : ℕ} : MergeLoop n → Bool
  | .receiving _ => true
  | _ => false

/-- The capacities of the channels. -/
structure MergeCaps (n : ℕ) where
  workerOuts : Fin n → ℕ
  fanIn : ℕ
  resume : ℕ

/-- A running merge. That records in `fanIn` and in the loop's hand carry the number of their worker
    is only for the proofs: no step reads it. -/
structure AlignedMerge (n : ℕ) where
  workerOuts : Fin n → Chan Record
  forwarders : Fin n → ForwarderPc
  fanIn : Chan (Fin n × Record)
  resume : Fin n → Chan Unit
  loop : MergeLoop n
  out : List Record

/-- A step of a forwarder, of the goroutine that closes `fanIn`, or of the loop. -/
inductive MergeEvent (n : ℕ) where
  | forward (w : Fin n)
  | push (w : Fin n)
  | wake (w : Fin n)
  | closeFanIn
  | receive
  | send
  | resume

namespace AlignedMerge

variable {n : ℕ}

/-- The merge before its first record. -/
def start (caps : MergeCaps n) : AlignedMerge n where
  workerOuts w := Chan.make (caps.workerOuts w)
  forwarders _ := .receiving
  fanIn := Chan.make caps.fanIn
  resume _ := Chan.make caps.resume
  loop := .receiving 0
  out := []

/-- A forwarder takes the next record of its worker, or returns at the end. -/
def forward (m : AlignedMerge n) (w : Fin n) : Option (AlignedMerge n) :=
  match m.forwarders w, (m.workerOuts w).recv with
  | .receiving, some (some r, c) => some { m with
      workerOuts := Function.update m.workerOuts w c
      forwarders := Function.update m.forwarders w (.sending r) }
  | .receiving, some (none, _) => some { m with
      forwarders := Function.update m.forwarders w .done }
  | _, _ => none

/-- A forwarder puts its record into `fanIn`; behind a marker it parks. -/
def push (m : AlignedMerge n) (w : Fin n) : Option (AlignedMerge n) :=
  match m.forwarders w with
  | .sending r => (m.fanIn.send m.loop.isReceiving (w, r)).map fun c => { m with
      fanIn := c
      forwarders := Function.update m.forwarders w (if r.isMarker then .parked else .receiving) }
  | _ => none

/-- A parked forwarder takes its token. -/
def wake (m : AlignedMerge n) (w : Fin n) : Option (AlignedMerge n) :=
  match m.forwarders w, (m.resume w).recv with
  | .parked, some (some _, c) => some { m with
      resume := Function.update m.resume w c
      forwarders := Function.update m.forwarders w .receiving }
  | _, _ => none

/-- All forwarders have returned: close `fanIn`. -/
def closeFanIn (m : AlignedMerge n) : Option (AlignedMerge n) :=
  if (∀ w, m.forwarders w = .done) ∧ m.fanIn.closed = false then
    some { m with fanIn := m.fanIn.close }
  else none

/-- The loop takes the next record from `fanIn`, or returns at the end. -/
def receive (m : AlignedMerge n) : Option (AlignedMerge n) :=
  match m.loop, m.fanIn.recv with
  | .receiving arrived, some (some (w, r), c) =>
    if r.isMarker then
      -- hold until the laggards deliver their copy
      if arrived + 1 < n then some { m with fanIn := c, loop := .receiving (arrived + 1) }
      else some { m with fanIn := c, loop := .sending w r 0 }
    else some { m with fanIn := c, loop := .sending w r arrived }
  | .receiving arrived, some (none, _) => some { m with loop := .returned arrived }
  | _, _ => none

/-- The loop sends a record on. -/
def send (m : AlignedMerge n) : Option (AlignedMerge n) :=
  match m.loop with
  | .sending _ r arrived => some { m with
      out := m.out ++ [r]
      loop := if r.isMarker then .resuming 0 else .receiving arrived }
  | _ => none

/-- The loop hands the next token out. -/
def handToken (m : AlignedMerge n) : Option (AlignedMerge n) :=
  match m.loop with
  | .resuming k =>
    if h : k < n then
      ((m.resume ⟨k, h⟩).send (m.forwarders ⟨k, h⟩ == .parked) ()).map fun c => { m with
        resume := Function.update m.resume ⟨k, h⟩ c
        loop := if k + 1 < n then .resuming (k + 1) else .receiving 0 }
    else none
  | _ => none

/-- One step of one of the goroutines. -/
def step (m : AlignedMerge n) : MergeEvent n → Option (AlignedMerge n)
  | .forward w => m.forward w
  | .push w => m.push w
  | .wake w => m.wake w
  | .closeFanIn => m.closeFanIn
  | .receive => m.receive
  | .send => m.send
  | .resume => m.handToken

/-! ## The workers' side -/

/-- A worker sends a record to its output channel. -/
def put (m : AlignedMerge n) (w : Fin n) (r : Record) : Option (AlignedMerge n) :=
  ((m.workerOuts w).send (m.forwarders w == .receiving) r).map fun c =>
    { m with workerOuts := Function.update m.workerOuts w c }

/-- A worker closes its output channel. -/
def closeOut (m : AlignedMerge n) (w : Fin n) : AlignedMerge n :=
  { m with workerOuts := Function.update m.workerOuts w (m.workerOuts w).close }

end AlignedMerge

/-! ## A merge of given sequences -/

/-- A merge of workers that send given sequences: `todo w` is what worker `w` has not sent yet. -/
structure MergeRun (n : ℕ) where
  todo : Fin n → List Record
  merge : AlignedMerge n

namespace MergeRun

variable {n : ℕ}

/-- A worker sends its next record or closes its output, or the merge takes a step. -/
inductive Event (n : ℕ) where
  | work (w : Fin n)
  | finish (w : Fin n)
  | merge (e : MergeEvent n)

/-- Nothing has been sent. -/
def start (caps : MergeCaps n) (seqs : Fin n → List Record) : MergeRun n :=
  ⟨seqs, AlignedMerge.start caps⟩

/-- One event; `none` when it is not enabled. -/
def step (s : MergeRun n) : Event n → Option (MergeRun n)
  | .work w =>
    match s.todo w with
    | r :: rest => (s.merge.put w r).map fun m => ⟨Function.update s.todo w rest, m⟩
    | [] => none
  | .finish w =>
    if s.todo w = [] ∧ (s.merge.workerOuts w).closed = false then
      some { s with merge := s.merge.closeOut w }
    else none
  | .merge e => (s.merge.step e).map fun m => { s with merge := m }

/-- A worker has made new records to send. -/
def refill (s : MergeRun n) (w : Fin n) (rs : List Record) : MergeRun n :=
  ⟨Function.update s.todo w rs, s.merge⟩

end MergeRun

end Weibo
