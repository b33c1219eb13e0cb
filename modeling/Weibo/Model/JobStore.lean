import Mathlib.Data.Int.Notation
import Mathlib.Data.Nat.Notation
import Mathlib.Logic.Function.Basic

/-!
# Job store and containers (`control/lifecycle`, `control/store`, `control/backend`)

What the controller of one job reads and writes: the job's desired state, the runs launched for it
and its audit log, in the store, and its containers, in the backend.

`Started` is kept as text in the store and compared as such; `T` is the type of
these texts with their order.  Of `Stopped` only its presence is ever read.  What
a container is given to run (image, document, environment, limits) is left out.
-/

namespace Weibo.Control

/-! ## Lifecycle -/

/-- `lifecycle.Phase`. -/
inductive Phase where
  | submitted
  | starting
  | running
  | cancelling
  | cancelled
  | finished
  | failed
deriving DecidableEq

structure RestartPolicy where
  /-- 0 disables automatic restart. -/
  maxAttempts : ℤ
  baseBackoff : Int64
  maxBackoff : Int64

namespace RestartPolicy

def shouldRestart (p : RestartPolicy) (phase : Phase) (attempt : ℕ) : Bool :=
  if p.maxAttempts ≤ 0 then false
  else decide (phase = .failed) && decide (attempt < p.maxAttempts)

/-- Double `d` the given number of times, up to the limit if there is one. -/
def doubled (p : RestartPolicy) : ℕ → Int64 → Int64
  | 0, d => d
  | n + 1, d =>
    if p.maxBackoff > 0 ∧ d * 2 ≥ p.maxBackoff then p.maxBackoff else p.doubled n (d * 2)

def backoff (p : RestartPolicy) (attempt : ℕ) : Int64 := p.doubled (attempt - 1) p.baseBackoff

/-- 5 attempts, with a backoff from 2 seconds up to a minute. -/
def defaultRestartPolicy : RestartPolicy := ⟨5, 2000000000, 60000000000⟩

end RestartPolicy

/-! ## Store -/

inductive DesiredState where
  | running
  | stopped
deriving DecidableEq

/-- What `GetJob` returns of a job. -/
structure Job where
  desired : DesiredState
deriving DecidableEq

/-- One container launched for the job. -/
structure Run (T : Type) where
  id : ℕ
  containerID : ℕ
  hostPort : ℕ
  phase : Phase
  attempt : ℕ
  started : T
  /-- `Stopped != nil`. -/
  stopped : Bool
deriving DecidableEq

/-- An entry of the audit log. -/
structure Transition where
  runID : Option ℕ
  fromPhase : Option Phase
  toPhase : Phase
  reason : String

/-- The store's tables, the runs in the order of their creation. -/
structure Store (T : Type) where
  desired : DesiredState
  runs : List (Run T)
  transitions : List Transition

namespace Store

variable {T : Type}

def setDesired (s : Store T) (d : DesiredState) : Store T := { s with desired := d }

def appendTransition (s : Store T) (t : Transition) : Store T :=
  { s with transitions := s.transitions ++ [t] }

/-- Insert a run; its `ID` is the primary key. -/
def createRun (s : Store T) (r : Run T) : Option (Store T) :=
  if ∀ row ∈ s.runs, row.id ≠ r.id then some { s with runs := s.runs ++ [r] } else none

/-- Overwrite all columns but `ID` and `Started`. -/
def updateRun (s : Store T) (r : Run T) : Store T :=
  { s with runs := s.runs.map fun row =>
      if row.id = r.id then { r with started := row.started } else row }

/-- The later of two runs, the first if they started at the same time. -/
def later [LT T] [DecidableLT T] (a b : Run T) : Run T := if a.started < b.started then b else a

/-- The run that started last. -/
def latestRun [LT T] [DecidableLT T] (s : Store T) : Option (Run T) :=
  match s.runs with
  | [] => none
  | r :: rest => some (rest.foldl later r)

/-- The runs that have not stopped. -/
def activeRuns (s : Store T) : List (Run T) := s.runs.filter fun r => !r.stopped

end Store

/-! ## Backend -/

inductive Container where
  | running
  | exited (code : ℤ)
  | gone
deriving DecidableEq

/-- The containers launched so far. -/
abbrev Backend := ℕ → Option Container

namespace Backend

/-- Stop a container, which then exits with the given code. One that is not running stays as it
    is. -/
def stop (b : Backend) (c : ℕ) (code : ℤ) : Backend :=
  if b c = some .running then Function.update b c (some (.exited code)) else b

/-- A container that was never launched is gone. -/
def status (b : Backend) (c : ℕ) : Container := (b c).getD .gone

/-- A container is removed. -/
def vanish (b : Backend) (c : ℕ) : Backend := Function.update b c (some .gone)

/-- Start a container under a new name. -/
def launch (b : Backend) (c : ℕ) : Option Backend :=
  if b c = none then some (Function.update b c (some .running)) else none

end Backend

end Weibo.Control
