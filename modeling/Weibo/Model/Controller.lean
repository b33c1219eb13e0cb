import Weibo.ForStd.Run
import Weibo.Model.JobStore

/-!
# Controller (`control/controller.go`, `control/reconcile.go`)

`Cancel`, `Restart` and `Reconcile` on one submitted job, any number of them at once. An execution
is a sequence of calls to the store and the backend; between two calls of one execution the others
make theirs. `Pc` says which call comes next and holds the local variables that are still needed,
`Pc.call` is that call and `Pc.resume` what the code does with its result, up to the next call.

All calls succeed.  What is not up to the controller is part of the event: the
result of the clock and of `newID`, host ports, exit codes, and when a container
exits or vanishes.
-/

namespace Weibo.Control

variable {T : Type}

/-! ## Calls -/

/-- A call to the store or the backend. `sleep` waits for the backoff or for the context to be
    done. -/
inductive Call (T : Type) where
  | getJob
  | setDesired (d : DesiredState)
  | latestRun
  | activeRuns
  | createRun (r : Run T)
  | updateRun (r : Run T)
  | appendTransition (t : Transition)
  | launch
  | stop (container : ℕ)
  | status (container : ℕ)
  | sleep

/-- What a call returns. -/
def Call.Res : Call T → Type
  | .getJob => Job
  | .latestRun => Option (Run T)
  | .activeRuns => List (Run T)
  | .launch => ℕ
  | .status _ => Container × ℕ
  | _ => Unit

/-- What the outside decides during a call, or between it and the next. -/
structure Answer (T : Type) where
  /-- `time.Now`. -/
  now : T
  /-- A new run ID, or the new container's ID. -/
  id : ℕ
  hostPort : ℕ
  code : ℤ
  /-- `ctx.Done`. -/
  done : Bool

/-- Store and backend. -/
structure World (T : Type) where
  store : Store T
  backend : Backend

/-- A call takes effect at once. -/
def World.perform [LT T] [DecidableLT T] (w : World T) (a : Answer T) :
    (c : Call T) → Option (World T × c.Res)
  | .getJob => some (w, ⟨w.store.desired⟩)
  | .setDesired d => some ({ w with store := w.store.setDesired d }, ())
  | .latestRun => some (w, w.store.latestRun)
  | .activeRuns => some (w, w.store.activeRuns)
  | .createRun r => (w.store.createRun r).map fun store => ({ w with store }, ())
  | .updateRun r => some ({ w with store := w.store.updateRun r }, ())
  | .appendTransition t => some ({ w with store := w.store.appendTransition t }, ())
  | .launch => (w.backend.launch a.id).map fun backend => ({ w with backend }, a.id)
  | .stop c => some ({ w with backend := w.backend.stop c a.code }, ())
  | .status c => some (w, (w.backend.status c, a.hostPort))
  | .sleep => some (w, ())

/-! ## Executions -/

/-- What follows a `finishRun`: the loop of `Reconcile` over the runs that are left (none in
    `Cancel`), the rest of `doRestart`, or `maybeRestart`. -/
inductive Next (T : Type) where
  | runs (rest : List (Run T))
  | setDesired
  | maybeRestart (job : Job) (run : Run T) (rest : List (Run T))

/-- Where an execution is: the call it makes next. -/
inductive Pc (T : Type) where
  -- `Cancel`
  | cancelGetJob
  | cancelSetDesired
  | cancelLatestRun
  -- `doRestart`
  | restartGetJob
  | restartLatestRun
  | restartSetDesired
  -- `Stop` and `finishRun`
  | stop (run : Run T) (reason : String) (next : Next T)
  | updateRun (run : Run T) (phase : Phase) (reason : String) (next : Next T)
  | transition (run : Run T) (phase : Phase) (reason : String) (next : Next T)
  -- `Reconcile`
  | activeRuns
  | getJob (run : Run T) (rest : List (Run T))
  | status (job : Job) (run : Run T) (rest : List (Run T))
  | refresh (run : Run T) (rest : List (Run T))
  | backoff (attempt : ℕ) (rest : List (Run T))
  -- `launch`
  | fence (attempt : ℕ) (rest : List (Run T))
  | launch (id attempt : ℕ) (started : T) (rest : List (Run T))
  | launchStatus (run : Run T) (rest : List (Run T))
  | createRun (run : Run T) (rest : List (Run T))
  | launched (id : ℕ) (rest : List (Run T))

/-- The call an execution makes next. -/
def Pc.call : Pc T → Call T
  | .cancelGetJob | .restartGetJob | .getJob .. => .getJob
  | .cancelSetDesired => .setDesired .stopped
  | .restartSetDesired => .setDesired .running
  | .cancelLatestRun | .restartLatestRun | .fence .. => .latestRun
  | .stop run .. => .stop run.containerID
  | .updateRun run phase .. => .updateRun { run with phase, stopped := true }
  | .transition run phase reason _ =>
    .appendTransition ⟨some run.id, some .running, phase, reason⟩
  | .activeRuns => .activeRuns
  | .status _ run _ => .status run.containerID
  | .refresh run _ => .updateRun run
  | .backoff .. => .sleep
  | .launch .. => .launch
  | .launchStatus run _ => .status run.containerID
  | .createRun run _ => .createRun run
  | .launched id _ => .appendTransition ⟨some id, some .submitted, .running, "launched"⟩

/-- The loop of `Reconcile` over the runs it got. -/
def nextRun : List (Run T) → Option (Pc T)
  | [] => none
  | run :: rest => some (.getJob run rest)

/-- Launch a fresh run if the restart policy allows it, after the backoff. -/
def maybeRestart (p : RestartPolicy) (job : Job) (run : Run T) (rest : List (Run T)) :
    Option (Pc T) :=
  if job.desired ≠ .running then nextRun rest
  else if !p.shouldRestart .failed run.attempt then nextRun rest
  else if p.backoff run.attempt > 0 then some (.backoff (run.attempt + 1) rest)
  else some (.fence (run.attempt + 1) rest)

def Next.pc (p : RestartPolicy) : Next T → Option (Pc T)
  | .runs rest => nextRun rest
  | .setDesired => some .restartSetDesired
  | .maybeRestart job run rest => Control.maybeRestart p job run rest

/-- Record the terminal phase of an exited container. -/
def handleExit (job : Job) (run : Run T) (code : ℤ) (rest : List (Run T)) : Pc T :=
  if job.desired = .stopped then .updateRun run .cancelled "stopped by request" (.runs rest)
  else if code = 0 then .updateRun run .finished "container exited" (.runs rest)
  else .updateRun run .failed "nonzero exit" (.maybeRestart job run rest)

/-- Bring a run closer to the job's desired state. -/
def reconcileRun (job : Job) (run : Run T) (rest : List (Run T)) :
    Container × ℕ → Option (Pc T)
  | (.running, port) =>
    if job.desired = .stopped then some (.stop run "desired stopped" (.runs rest))
    else if run.phase ≠ .running ∨ (port ≠ 0 ∧ run.hostPort ≠ port) then
      some (.refresh { run with
        phase := .running, hostPort := if port ≠ 0 then port else run.hostPort } rest)
    else nextRun rest
  | (.exited code, _) => some (handleExit job run code rest)
  | (.gone, _) =>
    if job.desired = .stopped then
      some (.updateRun run .cancelled "container gone; desired stopped" (.runs rest))
    else some (.updateRun run .failed "container gone" (.maybeRestart job run rest))

/-- What an execution does with the result of its call: the next call, `none` if it returns. -/
def Pc.resume (p : RestartPolicy) (a : Answer T) : (pc : Pc T) → pc.call.Res → Option (Pc T)
  | .cancelGetJob, _ => some .cancelSetDesired
  | .cancelSetDesired, _ => some .cancelLatestRun
  | .cancelLatestRun, (latest : Option (Run T)) =>
    match latest with
    | none => none
    | some run => if run.stopped then none else some (.stop run "user cancel" (.runs []))
  | .restartGetJob, _ => some .restartLatestRun
  | .restartLatestRun, (latest : Option (Run T)) =>
    match latest with
    | none => some .restartSetDesired
    | some run =>
      if run.stopped then some .restartSetDesired else some (.stop run "restart" .setDesired)
  | .restartSetDesired, _ => some (.fence 1 [])
  | .stop run reason next, _ => some (.updateRun run .cancelled reason next)
  | .updateRun run phase reason next, _ => some (.transition run phase reason next)
  | .transition _ _ _ next, _ => next.pc p
  | .activeRuns, (runs : List (Run T)) => nextRun runs
  | .getJob run rest, (job : Job) => some (.status job run rest)
  | .status job run rest, (st : Container × ℕ) => reconcileRun job run rest st
  | .refresh _ rest, _ => nextRun rest
  | .backoff attempt rest, _ => if a.done then nextRun rest else some (.fence attempt rest)
  | .fence attempt rest, (prev : Option (Run T)) =>
    -- an active run is an error, which `maybeRestart` only logs
    match prev with
    | none => some (.launch a.id attempt a.now rest)
    | some run => if run.stopped then some (.launch a.id attempt a.now rest) else nextRun rest
  | .launch id attempt started rest, (container : ℕ) =>
    some (.launchStatus ⟨id, container, 0, .running, attempt, started, false⟩ rest)
  | .launchStatus run rest, (st : Container × ℕ) =>
    some (.createRun { run with hostPort := st.2 } rest)
  | .createRun run rest, _ => some (.launched run.id rest)
  | .launched _ rest, _ => nextRun rest

/-! ## The controller -/

inductive Request where
  | cancel
  | restart
  | reconcile
deriving DecidableEq

/-- The first call of a request. -/
def Request.pc : Request → Pc T
  | .cancel => .cancelGetJob
  | .restart => .restartGetJob
  | .reconcile => .activeRuns

/-- A request being served; `pc` is `none` once it has returned. -/
structure Execution (T : Type) where
  request : Request
  pc : Option (Pc T)

structure Controller (T : Type) where
  world : World T
  procs : List (Execution T)

namespace Controller

inductive Event (T : Type) where
  /-- A request comes in. -/
  | start (r : Request)
  /-- An execution makes its next call. -/
  | call (i : ℕ) (a : Answer T)
  /-- A container exits by itself. -/
  | exit (c : ℕ) (code : ℤ)
  /-- A container is removed from outside. -/
  | vanish (c : ℕ)

variable [LT T] [DecidableLT T]

def step (p : RestartPolicy) (s : Controller T) : Event T → Option (Controller T)
  | .start r => some { s with procs := s.procs ++ [⟨r, some r.pc⟩] }
  | .call i a => do
    let e ← s.procs[i]?
    let pc ← e.pc
    let (world, res) ← s.world.perform a pc.call
    some ⟨world, s.procs.set i { e with pc := pc.resume p a res }⟩
  | .exit c code =>
    if s.world.backend c = some .running then
      some { s with world := { s.world with backend := s.world.backend.stop c code } }
    else none
  | .vanish c =>
    if (s.world.backend c).isSome then
      some { s with world := { s.world with backend := s.world.backend.vanish c } }
    else none

/-- A job that was just submitted: its first run is recorded and its container runs. -/
def submitted (started : T) (hostPort : ℕ) : Controller T where
  world :=
    { store :=
        { desired := .running
          runs := [⟨0, 0, hostPort, .running, 1, started, false⟩]
          transitions := [⟨none, none, .submitted, "submitted"⟩,
            ⟨some 0, some .submitted, .running, "launched"⟩] }
      backend := Function.update (fun _ => none) 0 (some .running) }
  procs := []

end Controller

end Weibo.Control
