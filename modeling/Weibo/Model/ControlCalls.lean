import Mathlib.Data.List.Nodup
import Weibo.Model.JobStore

/-!
# The controller's requests one after the other, with failures (`control/controller.go`,
`control/reconcile.go`)

`Submit`, `Cancel`, `Restart` and `Reconcile` on any number of jobs, each served to its end before
the next one. The calls to the backend's `Launch`, `Stop` and `Status` and to the store's
`CreateRun` and `UpdateRun` may fail, each time anew; `Outcome` says what the outside makes of a
call. A failed `Stop` leaves the container as it was, and a failed `Launch` starts nothing.
Containers exit or vanish by themselves at any time.

Failed calls are logged.  The other calls to the store succeed; a document that does not
pass validation changes nothing and is left out, and so is what a container is given to
run.
-/

open List

namespace Weibo.Control

variable {T : Type}

/-! ## Tables -/

/-- A workflow document, or a prebuilt image. -/
inductive JobKind where
  | yaml
  | sdk

/-- A row of `jobs`. -/
structure JobRow where
  id : ℕ
  desired : DesiredState

/-- A row of `runs`. A run whose launch failed has no container. -/
structure RunRow (T : Type) where
  id : ℕ
  jobID : ℕ
  containerID : Option ℕ
  hostPort : ℕ
  phase : Phase
  attempt : ℕ
  error : String
  started : T
  /-- `Stopped != nil`. -/
  stopped : Bool

/-- A row of `transitions`. -/
structure TransitionRow extends Transition where
  jobID : ℕ

/-- The tables, with their primary keys. -/
structure Tables (T : Type) where
  jobs : List JobRow
  runs : List (RunRow T)
  transitions : List TransitionRow
  jobIDs : (jobs.map JobRow.id).Nodup
  runIDs : (runs.map RunRow.id).Nodup

namespace Tables

/-- A new key is inserted. -/
theorem nodup_insert {α : Type} {key : α → ℕ} {rows : List α} {row : α}
    (h : (rows.map key).Nodup) (hnew : ∀ old ∈ rows, key old ≠ key row) :
    ((rows ++ [row]).map key).Nodup := by
  rw [map_append, map_singleton, nodup_append']
  refine ⟨h, nodup_singleton _, ?_⟩
  intro k hk hk'
  obtain ⟨old, hold, rfl⟩ := mem_map.mp hk
  exact hnew old hold (mem_singleton.mp hk')

/-- Rows are overwritten, but for their keys. -/
theorem nodup_update {α : Type} {key : α → ℕ} {rows : List α} {f : α → α}
    (h : (rows.map key).Nodup) (hf : ∀ row, key (f row) = key row) :
    ((rows.map f).map key).Nodup := by
  have hkeys : rows.map (key ∘ f) = rows.map key := map_congr_left fun row _ => hf row
  rw [map_map, hkeys]
  exact h

/-- Insert a job. -/
def createJob (t : Tables T) (job : JobRow) : Option (Tables T) :=
  if h : ∀ row ∈ t.jobs, row.id ≠ job.id then
    some { t with jobs := t.jobs ++ [job], jobIDs := nodup_insert t.jobIDs h }
  else none

def getJob (t : Tables T) (id : ℕ) : Option JobRow := t.jobs.find? fun row => row.id == id

def setDesired (t : Tables T) (id : ℕ) (d : DesiredState) : Tables T :=
  { t with
    jobs := t.jobs.map fun row => if row.id = id then { row with desired := d } else row
    jobIDs := nodup_update t.jobIDs fun row => by split <;> rfl }

def appendTransition (t : Tables T) (row : TransitionRow) : Tables T :=
  { t with transitions := t.transitions ++ [row] }

/-- Insert a run. -/
def createRun (t : Tables T) (run : RunRow T) : Option (Tables T) :=
  if h : ∀ row ∈ t.runs, row.id ≠ run.id then
    some { t with runs := t.runs ++ [run], runIDs := nodup_insert t.runIDs h }
  else none

/-- Overwrite all columns but `ID`, `JobID` and `Started`. -/
def updateRun (t : Tables T) (run : RunRow T) : Tables T :=
  { t with
    runs := t.runs.map fun row =>
      if row.id = run.id then { run with jobID := row.jobID, started := row.started } else row
    runIDs := nodup_update t.runIDs fun row => by
      split
      case isTrue heq => exact heq.symm
      case isFalse => rfl }

/-- The later of two runs, the first if they started at the same time. -/
def later [LT T] [DecidableLT T] (a b : RunRow T) : RunRow T :=
  if a.started < b.started then b else a

/-- The run of a job that started last. -/
def latestRun [LT T] [DecidableLT T] (t : Tables T) (jobID : ℕ) : Option (RunRow T) :=
  match t.runs.filter fun row => row.jobID == jobID with
  | [] => none
  | run :: rest => some (rest.foldl later run)

/-- The runs that have not stopped. -/
def activeRuns (t : Tables T) : List (RunRow T) := t.runs.filter fun row => !row.stopped

end Tables

/-! ## Calls -/

/-- What the outside makes of a call. -/
structure Outcome (T : Type) where
  /-- `time.Now`. -/
  now : T
  /-- A new job, run or container ID. -/
  id : ℕ
  hostPort : ℕ
  /-- How a container exits that is stopped. -/
  code : ℤ
  /-- `ctx.Done`. -/
  done : Bool
  fails : Bool
  /-- The text of the error if the call fails. -/
  err : String
  /-- The containers that have exited or vanished since the last call. -/
  dies : List (ℕ × Container)

/-- Containers exit or vanish. -/
def Backend.die (b : Backend) (dies : List (ℕ × Container)) : Backend :=
  dies.foldl (fun b d =>
    if b d.1 = some .running ∧ d.2 ≠ .running then Function.update b d.1 (some d.2) else b) b

/-- A call that has failed; of `Stop` also whether the container was running. -/
inductive FailedCall where
  | launch
  | stop (container : Option ℕ) (running : Bool)
  | status (container : Option ℕ)
  | createRun (container : Option ℕ)
  | updateRun (id : ℕ)

/-- Store and backend, with the number of calls so far and those of them that failed. -/
structure System (T : Type) where
  tables : Tables T
  backend : Backend
  calls : ℕ
  failed : List FailedCall

namespace System

def start : System T := ⟨⟨[], [], [], List.nodup_nil, List.nodup_nil⟩, fun _ => none, 0, []⟩

def transition (s : System T) (jobID : ℕ) (runID : Option ℕ) (fromPhase : Option Phase)
    (toPhase : Phase) (reason : String) : System T :=
  { s with tables := s.tables.appendTransition ⟨⟨runID, fromPhase, toPhase, reason⟩, jobID⟩ }

/-- Log a call that has failed. -/
def logFailed (s : System T) (f : FailedCall) : System T := { s with failed := s.failed ++ [f] }

/-- Whether there is such a container and it is running. -/
def runs (s : System T) : Option ℕ → Bool
  | some c => decide (s.backend c = some .running)
  | none => false

section Calls

variable (env : ℕ → Outcome T)

/-- The next call is made. -/
def next (s : System T) : System T :=
  { s with calls := s.calls + 1, backend := s.backend.die (env s.calls).dies }

/-- `Stop`, whose error no caller looks at. -/
def stopContainer (s : System T) (container : Option ℕ) : System T :=
  let a := env s.calls
  let s := s.next env
  if a.fails then s.logFailed (.stop container (s.runs container))
  else
    match container with
    | some c => { s with backend := s.backend.stop c a.code }
    | none => s

/-- `Status`: the container and its host port. -/
def containerStatus (s : System T) (container : Option ℕ) :
    System T × Option (Container × ℕ) :=
  let a := env s.calls
  let s := s.next env
  if a.fails then (s.logFailed (.status container), none)
  else
    match container with
    | some c => (s, some (s.backend.status c, a.hostPort))
    | none => (s, some (.gone, a.hostPort))

/-- `CreateRun`, with the text of its error. -/
def recordRun (s : System T) (run : RunRow T) : System T × Option String :=
  let a := env s.calls
  let s := s.next env
  match if a.fails then none else s.tables.createRun run with
  | some tables => ({ s with tables }, none)
  | none => (s.logFailed (.createRun run.containerID), some a.err)

/-- `UpdateRun`, whose error no caller looks at. -/
def rewriteRun (s : System T) (run : RunRow T) : System T :=
  let a := env s.calls
  let s := s.next env
  if a.fails then s.logFailed (.updateRun run.id)
  else { s with tables := s.tables.updateRun run }

/-- Mark a run terminal in the store and log the transition. -/
def finishRun (s : System T) (run : RunRow T) (fromPhase toPhase : Phase) (reason : String) :
    System T :=
  (s.rewriteRun env { run with phase := toPhase, stopped := true }).transition run.jobID
    (some run.id) (some fromPhase) toPhase reason

/-! ## Requests -/

/-- The part of `launch` behind the check for an active run: start a container and record the
    run. -/
def launchRun (s : System T) (jobID attempt id : ℕ) (now : T) : System T × Option String :=
  let a := env s.calls
  let s := s.next env
  match if a.fails then none else s.backend.launch a.id with
  | none =>
    -- the run is recorded as failed, without a container
    let s := s.logFailed .launch
    let s := (s.recordRun env ⟨id, jobID, none, 0, .failed, attempt, a.err, now, true⟩).1
    (s.transition jobID (some id) (some .starting) .failed a.err, some a.err)
  | some backend =>
    let s := { s with backend }
    let st := s.containerStatus env (some a.id)
    -- without a status the host port stays 0
    let hostPort := match st.2 with
      | some (_, port) => port
      | none => 0
    match st.1.recordRun env ⟨id, jobID, some a.id, hostPort, .running, attempt, "", now, false⟩ with
    | (s, some err) => (s, some err)
    | (s, none) => (s.transition jobID (some id) (some .submitted) .running "launched", none)

variable [LT T] [DecidableLT T]

/-- Start a container for a job, unless its latest run is active. -/
def launch (s : System T) (jobID attempt : ℕ) : System T × Option String :=
  let a := env s.calls
  let s := s.next env
  match s.tables.latestRun jobID with
  | some prev =>
    if prev.stopped then s.launchRun env jobID attempt a.id a.now
    else (s, some s!"job {jobID} already has an active run {prev.id}")
  | none => s.launchRun env jobID attempt a.id a.now

/-- `submitSDK` logs another reason. -/
def submitReason : JobKind → String
  | .yaml => "submitted"
  | .sdk => "submitted (sdk)"

/-- Record a job and launch its first container. -/
def submit (s : System T) (kind : JobKind) : System T × Option String :=
  let a := env s.calls
  let s := s.next env
  match s.tables.createJob ⟨a.id, .running⟩ with
  | none => (s, some a.err)
  | some tables =>
    let s := { s with tables }.transition a.id none none .submitted (submitReason kind)
    let r := s.launch env a.id 1
    (r.1, r.2.map ("submit: launch: " ++ ·))

/-- The error of `GetJob` for a job that is not there. -/
def errNoRows : String := "sql: no rows in result set"

/-- Ask for the job to be stopped, and stop its live container. -/
def cancel (s : System T) (jobID : ℕ) : System T × Option String :=
  match s.tables.getJob jobID with
  | none => (s, some errNoRows)
  | some _ =>
    let s := { s with tables := s.tables.setDesired jobID .stopped }
    match s.tables.latestRun jobID with
    | none => (s, none)
    | some run =>
      if run.stopped then (s, none)
      else
        ((s.stopContainer env run.containerID).finishRun env run .running .cancelled "user cancel",
          none)

/-- Stop a live run and launch a fresh one. -/
def doRestart (s : System T) (jobID : ℕ) : System T × Option String :=
  match s.tables.getJob jobID with
  | none => (s, some errNoRows)
  | some _ =>
    let s :=
      match s.tables.latestRun jobID with
      | none => s
      | some run =>
        if run.stopped then s
        else (s.stopContainer env run.containerID).finishRun env run .running .cancelled "restart"
    let r := { s with tables := s.tables.setDesired jobID .running }.launch env jobID 1
    (r.1, r.2.map ("restart: launch: " ++ ·))

/-- Launch a fresh run if the restart policy allows it, after the backoff. -/
def maybeRestart (p : RestartPolicy) (s : System T) (job : JobRow) (run : RunRow T) : System T :=
  if job.desired ≠ .running then s
  else if !p.shouldRestart .failed run.attempt then s
  else if p.backoff run.attempt > 0 ∧ (env s.calls).done then s
  -- an error is only logged
  else (s.launch env job.id (run.attempt + 1)).1

/-- Record the terminal phase of an exited container. -/
def handleExit (p : RestartPolicy) (s : System T) (job : JobRow) (run : RunRow T) (code : ℤ) :
    System T :=
  if job.desired = .stopped then s.finishRun env run .running .cancelled "stopped by request"
  else if code = 0 then s.finishRun env run .running .finished "container exited"
  else (s.finishRun env run .running .failed "nonzero exit").maybeRestart env p job run

/-- Bring a run closer to the job's desired state. -/
def reconcileRun (p : RestartPolicy) (s : System T) (job : JobRow) (run : RunRow T) :
    Container × ℕ → System T
  | (.running, port) =>
    if job.desired = .stopped then
      (s.stopContainer env run.containerID).finishRun env run .running .cancelled "desired stopped"
    else if run.phase ≠ .running ∨ (port ≠ 0 ∧ run.hostPort ≠ port) then
      s.rewriteRun env { run with
        phase := .running, hostPort := if port ≠ 0 then port else run.hostPort }
    else s
  | (.exited code, _) => s.handleExit env p job run code
  | (.gone, _) =>
    if job.desired = .stopped then
      s.finishRun env run .running .cancelled "container gone; desired stopped"
    else (s.finishRun env run .running .failed "container gone").maybeRestart env p job run

/-- The body of the loop of `Reconcile`. -/
def reconcileStep (p : RestartPolicy) (s : System T) (run : RunRow T) : System T :=
  match s.tables.getJob run.jobID with
  | none => s
  | some job =>
    match s.containerStatus env run.containerID with
    | (s, none) => s
    | (s, some st) => s.reconcileRun env p job run st

/-- Bring every active run closer to its job's desired state. -/
def reconcile (p : RestartPolicy) (s : System T) : System T :=
  s.tables.activeRuns.foldl (reconcileStep env p) s

end Calls

end System

/-- A request to the controller. -/
inductive JobRequest where
  | submit (kind : JobKind)
  | cancel (jobID : ℕ)
  | restart (jobID : ℕ)
  | reconcile

/-- Serve a request to its end. -/
def System.serve [LT T] [DecidableLT T] (env : ℕ → Outcome T) (p : RestartPolicy) (s : System T) :
    JobRequest → System T
  | .submit kind => (s.submit env kind).1
  | .cancel jobID => (s.cancel env jobID).1
  | .restart jobID => (s.doRestart env jobID).1
  | .reconcile => s.reconcile env p

end Weibo.Control
