import Weibo.Model.AlignedMerge
import Weibo.Model.Plan

/-!
# Parallel stages (`pipeline/keyed_stage.go`, `pipeline/stateless_stage.go`)

`KeyedStage.Run` and `StatelessStage.runParallel` run `n` workers between a router and the aligned
merge. The router takes the stage's input record by record: a marker is sent to the workers one
after the other, a data record to the worker that the key's hash or the round robin selects. At the
end of the input it closes the workers' inputs. A worker is a `Process` loop on a channel of its
own; what it makes of a record it sends on one by one, and at the end of its input it flushes and
closes its output.

Every channel has a capacity of its own.  The hops that only count or time
records pass them on in order; they stand for a larger capacity.  The hard
context never fires and no operator panics, the input is always there to be
read and ends, and whoever reads the stage's output is always ready.
-/

namespace Weibo

/-- What `StatelessStage.runWorker` makes of an input: markers are sent on as they are, data goes
    through the chain. -/
def runWorker (ops : List SingleProcessor) (input : List Record) : List Record :=
  input.flatMap fun r => if r.isMarker then [r] else processChain ops r

/-- Where a router is: at the stage's input, sending a data record to a worker, sending a marker to
    all workers in turn, closing the workers' inputs in turn, or returned. -/
inductive RouterPc (n : ℕ) where
  | receiving
  | sending (w : Fin n) (r : Record)
  | broadcasting (r : Record) (next : ℕ)
  | closing (next : ℕ)
  | done

/-- The capacities of the channels. -/
structure StageCaps (n : ℕ) extends MergeCaps n where
  workerIns : Fin n → ℕ

/-- A running stage. `outputs` is the merge with what each worker has made of its last record and
    not sent yet; `ended` are the workers that have seen the end of their input. -/
structure ParallelStage {n : ℕ} (M : OperatorLoop) (R : Router Record Record.isMarker n) where
  input : List Record
  cursor : R.Cursor
  router : RouterPc n
  workerIns : Fin n → Chan Record
  states : Fin n → M.State
  ended : Fin n → Bool
  outputs : MergeRun n

namespace ParallelStage

variable {n : ℕ} {M : OperatorLoop} {R : Router Record Record.isMarker n}

/-- A step of the router, of a worker, or of the merge with its inputs. -/
inductive Event (n : ℕ) where
  | receive
  | send
  | close
  | take (w : Fin n) (order : KeyOrder)
  | output (e : MergeRun.Event n)

/-- A stage before its first record. -/
def start (caps : StageCaps n) (init : Fin n → M.State) (cursor : R.Cursor)
    (input : List Record) : ParallelStage M R where
  input := input
  cursor := cursor
  router := .receiving
  workerIns w := Chan.make (caps.workerIns w)
  states := init
  ended _ := false
  outputs := .start caps.toMergeCaps fun _ => []

/-- Whether worker `w` stands at its input. -/
def waiting (s : ParallelStage M R) (w : Fin n) : Bool :=
  (s.outputs.todo w).isEmpty && !s.ended w

/-- The router takes the next record of the stage, or goes on to close the workers' inputs. -/
def receive (s : ParallelStage M R) : Option (ParallelStage M R) :=
  match s.router, s.input with
  | .receiving, r :: rest =>
    if r.isMarker then some { s with input := rest, router := .broadcasting r 0 }
    else
      let (cursor, r', w) := R.route s.cursor r
      some { s with input := rest, cursor := cursor, router := .sending w r' }
  | .receiving, [] => some { s with router := .closing 0 }
  | _, _ => none

/-- The router sends what it has taken to a worker. -/
def send (s : ParallelStage M R) : Option (ParallelStage M R) :=
  match s.router with
  | .sending w r => ((s.workerIns w).send (s.waiting w) r).map fun c => { s with
      workerIns := Function.update s.workerIns w c
      router := .receiving }
  | .broadcasting r k =>
    if h : k < n then
      ((s.workerIns ⟨k, h⟩).send (s.waiting ⟨k, h⟩) r).map fun c => { s with
        workerIns := Function.update s.workerIns ⟨k, h⟩ c
        router := if k + 1 < n then .broadcasting r (k + 1) else .receiving }
    else none
  | _ => none

/-- The router closes the next worker's input. -/
def close (s : ParallelStage M R) : Option (ParallelStage M R) :=
  match s.router with
  | .closing k =>
    if h : k < n then some { s with
      workerIns := Function.update s.workerIns ⟨k, h⟩ (s.workerIns ⟨k, h⟩).close
      router := if k + 1 < n then .closing (k + 1) else .done }
    else none
  | _ => none

/-- A worker that has sent everything takes its next record, or flushes at the end of its input. -/
def take (s : ParallelStage M R) (w : Fin n) (order : KeyOrder) : Option (ParallelStage M R) :=
  if s.waiting w then
    match (s.workerIns w).recv with
    | some (some r, c) =>
      let (state, rs) := M.toTransducer.step (s.states w) (order, r)
      some { s with
        workerIns := Function.update s.workerIns w c
        states := Function.update s.states w state
        outputs := s.outputs.refill w rs }
    | some (none, _) => some { s with
        ended := Function.update s.ended w true
        outputs := s.outputs.refill w (M.flush order (s.states w)) }
    | none => none
  else none

/-- A worker sends a record or closes its output, or the merge takes a step. A worker closes its
    output only after the end of its input. -/
def output (s : ParallelStage M R) (e : MergeRun.Event n) : Option (ParallelStage M R) :=
  match e with
  | .finish w =>
    if s.ended w then (s.outputs.step (.finish w)).map fun outputs => { s with outputs := outputs }
    else none
  | e => (s.outputs.step e).map fun outputs => { s with outputs := outputs }

/-- One event; `none` when it is not enabled. -/
def step (s : ParallelStage M R) : Event n → Option (ParallelStage M R)
  | .receive => s.receive
  | .send => s.send
  | .close => s.close
  | .take w order => s.take w order
  | .output e => s.output e

end ParallelStage

end Weibo
