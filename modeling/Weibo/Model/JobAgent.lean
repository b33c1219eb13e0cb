import Weibo.Model.Savepoint

/-!
# Job agent (`jobagent/agent.go`, `sdk/sdk.go`)

An agent supervises one job. `Serve` runs the job under it and promotes the final checkpoint to a
savepoint if one was requested. Requests and cancels come from HTTP handlers at any time; each
method takes the agent's lock, and `RequestSavepoint` takes it twice, once to record the label and
once to cancel the run.

Every locked section is one step.  When `Execute` returns, and with which kind of
error, is left to the run; so are the files of the checkpoint storage at the time of
the promotion.  Checkpointing is enabled, and the promotion is a step only if no
storage call fails.
-/

namespace Weibo

namespace JobAgent

/-- The coarse lifecycle state of a job. -/
inductive Phase where
  | starting
  | running
  | cancelling
  | finished
  | failed
deriving DecidableEq, Repr

def Phase.terminal : Phase → Bool
  | .finished | .failed => true
  | _ => false

/-- What the lock of an agent protects. -/
structure Agent where
  phase : Phase
  /-- The cancel function is set. -/
  hasCancel : Bool
  savepointReq : Bool
  savepointLabel : List Char
deriving DecidableEq, Repr

namespace Agent

def new : Agent := ⟨.starting, false, false, []⟩

/-- The first locked section of `Run`. -/
def begin (a : Agent) : Agent := { a with phase := .running, hasCancel := true }

/-- The last locked section of `Run`; `failed` says that `Execute` returned an error other than a
    cancellation. -/
def finish (a : Agent) (failed : Bool) : Agent :=
  { a with phase := if failed then .failed else .finished }

/-- Whether `Cancel` and `RequestSavepoint` do anything. -/
def live (a : Agent) : Bool := a.hasCancel && !a.phase.terminal

def cancel (a : Agent) : Agent := if a.live then { a with phase := .cancelling } else a

/-- The locked section of `RequestSavepoint`; `none` if the request is not accepted. -/
def requestSavepoint (a : Agent) (label : List Char) : Option Agent :=
  if a.live then some { a with savepointReq := true, savepointLabel := label } else none

/-- The label of the savepoint that was requested, if one was. -/
def savepointRequest (a : Agent) : Option (List Char) :=
  if a.savepointReq then some a.savepointLabel else none

end Agent

/-- Where `Serve` is. -/
inductive ServePc where
  /-- Before the job runs. -/
  | starting
  /-- In `Execute`. -/
  | executing
  /-- `Execute` has returned, and `Run` has not. -/
  | executed (failed : Bool)
  /-- `Run` has returned. -/
  | ran
  /-- In `CreateSavepoint`. -/
  | promoting (label : List Char)
  | done
deriving DecidableEq, Repr

/-- A job that is served, and the calls to its agent. -/
structure Serving where
  agent : Agent
  pc : ServePc
  /-- Requests that were accepted, before they cancel the run. -/
  cancelling : List (List Char)
  /-- Requests that have returned `true`. -/
  returned : List (List Char)
  store : SavepointStore

namespace Serving

def start (tree : FileTree TarStream) : Serving := ⟨.new, .starting, [], [], ⟨tree, []⟩⟩

/-- The requests that were accepted. -/
def accepted (s : Serving) : List (List Char) := s.cancelling ++ s.returned

inductive Event where
  /-- `Run` enters `Execute`. -/
  | begin
  /-- `Execute` returns. -/
  | executed (failed : Bool)
  /-- `Run` returns. -/
  | finish
  /-- The locked section of `RequestSavepoint`. -/
  | request (label : List Char)
  /-- An accepted request cancels the run and returns. -/
  | accept (i : ℕ)
  /-- `Cancel`. -/
  | cancel
  /-- `Serve` looks for a request. -/
  | read
  /-- `CreateSavepoint`, with the files of the checkpoint storage. -/
  | promote (tmp : List Char) (files : FileTree (List Char))

variable {Ops Blob : Type}

/-- A step of `Serve`, or of a call to its agent. -/
def step (codec : RecordCodec Ops Blob) (src : StorageDir) (b : FileBlobstore) (s : Serving) :
    Event → Option Serving
  | .begin =>
    if s.pc = .starting then some { s with agent := s.agent.begin, pc := .executing } else none
  | .executed failed =>
    if s.pc = .executing then some { s with pc := .executed failed } else none
  | .finish =>
    match s.pc with
    | .executed failed => some { s with agent := s.agent.finish failed, pc := .ran }
    | _ => none
  | .request label =>
    match s.agent.requestSavepoint label with
    | some agent => some { s with agent := agent, cancelling := label :: s.cancelling }
    | none => some s
  | .accept i =>
    s.cancelling[i]?.map fun label =>
      { s with
        agent := s.agent.cancel
        cancelling := s.cancelling.eraseIdx i
        returned := label :: s.returned }
  | .cancel => some { s with agent := s.agent.cancel }
  | .read =>
    if s.pc = .ran then
      match s.agent.savepointRequest with
      | some label => some { s with pc := .promoting label }
      | none => some { s with pc := .done }
    else none
  | .promote tmp files =>
    match s.pc with
    | .promoting label =>
      (SavepointStore.step codec b s.store (.create label tmp src files)).map fun store =>
        { s with store := store, pc := .done }
    | _ => none

end Serving

end JobAgent

end Weibo
