import Weibo.Model.Plan

/-!
# Planning (`pipeline/planner.go`, `pipeline/keyed_stage.go`, `workflow/validate.go`)

`BuildPlan` groups the flat list of operators of a program into stages, in one pass. Consecutive
stateless operators of the same parallelism are collected in a pending group that is flushed into a
stage of its own. A `KeyBy` takes the stateful operators that follow it and starts a keyed stage;
each of its workers gets a clone of each of them, registered under the next free worker index. Any
other stateful operator gets a channel stage.

A workflow's pipeline is checked for the order of its operators before it is compiled into such a
list.

The callbacks that are wired into the operators are part of the running plan
(`Weibo.Model.Plan`).
-/

namespace Weibo

/-! ## The order of a workflow's operators -/

/-- The supported operator types. -/
inductive OperatorType where
  | filter | selectFields | renameFields | setFields | keyBy | reduce | window | map | flatMap
  | process
deriving DecidableEq

/-- An entry of a workflow's pipeline. -/
structure WorkflowOperator where
  id : String
  type : OperatorType

structure ValidationError where
  path : String
  msg : String
deriving DecidableEq

/-- The place of an operator in the document. Ids need no escapes. -/
def opPath (i : ℕ) (op : WorkflowOperator) : String :=
  if op.id ≠ "" then s!"pipeline[{i}] \"" ++ op.id ++ "\"" else s!"pipeline[{i}]"

/-- `validator.pipeline` from operator number `i` on: `sawKeyBy` if there has been a `keyBy`,
    `sawReduceInGroup` if there has been a `reduce` since. -/
def pipelineErrors : ℕ → Bool → Bool → List WorkflowOperator → List ValidationError
  | _, _, _, [] => []
  | i, sawKeyBy, sawReduceInGroup, op :: ops =>
    let path := opPath i op
    match op.type with
    | .keyBy => pipelineErrors (i + 1) true false ops
    | .reduce =>
      (if sawKeyBy then [] else [⟨path, "reduce requires a keyBy before it"⟩]) ++
        pipelineErrors (i + 1) sawKeyBy true ops
    | .window =>
      (if sawKeyBy then [] else [⟨path, "window requires a keyBy before it"⟩]) ++
        (if sawReduceInGroup then
          [⟨path, "window must appear before the aggregation that consumes it"⟩]
        else []) ++
        pipelineErrors (i + 1) sawKeyBy sawReduceInGroup ops
    | _ => pipelineErrors (i + 1) sawKeyBy sawReduceInGroup ops

/-! ## Operators -/

/-- A `KeyByOperator`, with any number of partitions. -/
structure KeyByOperator where
  keySelector : Record → Bytes
  partitions : Int

/-- An operator as the planner looks at it: a router, a stateless operator with the parallelism set
    for it, or a stateful one, which can be cloned. -/
inductive Operator where
  | keyBy (kb : KeyByOperator)
  | single (op : SingleProcessor) (par : Int)
  | stateful (op : StatefulOperator)

/-- `Parallelizable.Parallelism`: at least 1. -/
def parallelism (par : Int) : ℕ := if par < 1 then 1 else par.toNat

/-- `Name` of a stateful operator. -/
def StatefulOperator.name : StatefulOperator → String
  | .reduce _ => "Reduce"
  | .window _ _ => "Window"

/-! ## Stages -/

/-- A stage of a plan. Stateful operators have the id under which their state is kept. -/
inductive PlannedStage where
  | source
  | stateless (stageName : String) (ops : List (SingleProcessor × Int)) (labels : List String)
      (parallelism : ℕ)
  | keyed (stageName : String) (kb : KeyByOperator)
      (workers : List (List (StatefulOperator × String)))
  | channel (stageName : String) (op : StatefulOperator) (label : String) (ownerID : String)
  | sink

/-- The error of a `StateBackendFor`, if there is one for an owner. -/
abbrev BackendErrors := String → Option String

def assignBackend (errs : BackendErrors) (ownerID : String) : Except String Unit :=
  match errs ownerID with
  | some err => .error ("pipeline: state backend for " ++ ownerID ++ ": " ++ err)
  | none => .ok ()

/-- The clones of one worker, and the next free worker index. -/
def cloneChain (errs : BackendErrors) :
    List StatefulOperator → ℕ → Except String (List (StatefulOperator × String) × ℕ)
  | [], idx => .ok ([], idx)
  | op :: ops, idx =>
    let key := s!"worker-{idx}"
    match assignBackend errs key with
    | .error err => .error err
    | .ok () =>
      match cloneChain errs ops (idx + 1) with
      | .error err => .error err
      | .ok (chain, next) => .ok ((op, key) :: chain, next)

/-- `NewKeyedStage`: the clones of `n` workers. -/
def newKeyedStage (errs : BackendErrors) (ops : List StatefulOperator) :
    ℕ → ℕ → Except String (List (List (StatefulOperator × String)) × ℕ)
  | 0, idx => .ok ([], idx)
  | n + 1, idx =>
    match cloneChain errs ops idx with
    | .error err => .error err
    | .ok (chain, next) =>
      match newKeyedStage errs ops n next with
      | .error err => .error err
      | .ok (workers, next) => .ok (chain :: workers, next)

/-- The stateful operators at the head of a list. -/
def takeStateful : List (Operator × String) → List StatefulOperator
  | (.stateful op, _) :: rest => op :: takeStateful rest
  | _ => []

/-! ## The pass over the operators -/

/-- The variables of `BuildPlan`, with the number of clones registered so far. -/
structure PlanBuild where
  stages : List PlannedStage
  group : List (SingleProcessor × Int)
  groupLabels : List String
  groupPar : ℕ
  statelessCount : ℕ
  keyedCount : ℕ
  channelCount : ℕ
  workerOps : ℕ

namespace PlanBuild

def start : PlanBuild := ⟨[.source], [], [], 1, 0, 0, 0, 0⟩

/-- Turn the pending group into a stage. -/
def flush (b : PlanBuild) : PlanBuild :=
  match b.group with
  | [] => b
  | group =>
    { b with
      stages := b.stages ++
        [.stateless s!"stateless-{b.statelessCount}" group b.groupLabels b.groupPar]
      statelessCount := b.statelessCount + 1
      group := []
      groupLabels := [] }

/-- A `KeyBy` with the stateful operators that it takes. -/
def keyed (errs : BackendErrors) (b : PlanBuild) (kb : KeyByOperator)
    (stateful : List StatefulOperator) : Except String PlanBuild :=
  if kb.partitions ≤ 0 then
    .error ("pipeline: KeyBy partitions must be > 0, got " ++ toString kb.partitions)
  else
    let b := b.flush
    match newKeyedStage errs stateful kb.partitions.toNat b.workerOps with
    | .error err => .error err
    | .ok (workers, workerOps) => .ok { b with
        stages := b.stages ++ [.keyed s!"keyed-{b.keyedCount}" kb workers]
        keyedCount := b.keyedCount + 1
        workerOps := workerOps }

/-- A stateless operator joins the pending group if it has the same parallelism. -/
def single (b : PlanBuild) (op : SingleProcessor) (par : Int) (label : String) : PlanBuild :=
  let b := if !b.group.isEmpty && parallelism par != b.groupPar then b.flush else b
  { b with
    groupPar := parallelism par
    group := b.group ++ [(op, par)]
    groupLabels := b.groupLabels ++ [label] }

/-- A stateful operator outside a keyed stage. -/
def channel (errs : BackendErrors) (b : PlanBuild) (i : ℕ) (op : StatefulOperator)
    (label : String) : Except String PlanBuild :=
  let b := b.flush
  let ownerID := s!"op-{i}"
  match assignBackend errs ownerID with
  | .error err => .error err
  | .ok () => .ok { b with
      stages := b.stages ++
        [.channel ("op-" ++ op.name ++ s!"-{b.channelCount}") op label ownerID]
      channelCount := b.channelCount + 1 }

/-- The loop of `BuildPlan` from operator number `i` on, with `skip` operators to be left out that a
    `KeyBy` has taken. -/
def loop (errs : BackendErrors) :
    ℕ → ℕ → List (Operator × String) → PlanBuild → Except String PlanBuild
  | _, _, [], b => .ok b
  | i, skip + 1, _ :: rest, b => loop errs (i + 1) skip rest b
  | i, 0, (.keyBy kb, _) :: rest, b =>
    match b.keyed errs kb (takeStateful rest) with
    | .error err => .error err
    | .ok b => loop errs (i + 1) (takeStateful rest).length rest b
  | i, 0, (.single op par, label) :: rest, b => loop errs (i + 1) 0 rest (b.single op par label)
  | i, 0, (.stateful op, label) :: rest, b =>
    match b.channel errs i op label with
    | .error err => .error err
    | .ok b => loop errs (i + 1) 0 rest b

end PlanBuild

/-- `BuildPlan`. -/
def buildPlan (errs : BackendErrors) (hasSource hasSink : Bool) (operators : List Operator)
    (labels : List String) : Except String (List PlannedStage) :=
  if hasSource = false then .error "pipeline: plan has no source"
  else if hasSink = false then .error "pipeline: plan has no sink"
  else if labels.length ≠ operators.length then
    .error s!"pipeline: {labels.length} labels for {operators.length} operators"
  else
    match PlanBuild.loop errs 0 0 (operators.zip labels) .start with
    | .error err => .error err
    | .ok b => .ok (b.flush.stages ++ [.sink])

/-! ## Running a plan -/

/-- A stateful operator that nothing has been restored into. -/
def StatefulOperator.fresh (tf : TimeFormat) : (op : StatefulOperator) → (op.loop tf).State
  | .reduce _ => freshReduce
  | .window _ _ => freshWindows

/-- What a stage between the source and the sink runs, all workers of a keyed stage with clones of
    the same operators. -/
def PlannedStage.spec (tf : TimeFormat) : PlannedStage → Option (StageSpec tf)
  | .source | .sink => none
  | .stateless _ ops _ parallelism => some (.stateless (ops.map Prod.fst) parallelism)
  | .keyed _ kb workers =>
    if h : 0 < kb.partitions.toNat then
      some (.keyed ⟨kb.keySelector, kb.partitions.toNat, h⟩
        ((workers.headD []).map fun c => ⟨c.1, fun _ => c.1.fresh tf⟩))
    else none
  | .channel _ op _ _ => some (.channel op (op.fresh tf))

end Weibo
