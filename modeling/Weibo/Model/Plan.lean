import Weibo.ForStd.Fork
import Weibo.Model.Injector
import Weibo.Model.Window

/-!
# Stages and plans (`pipeline/*.go`)

A plan is a sequence of stages connected by channels. A channel stage runs one stateful operator. A
stateless stage runs a chain of stateless operators, over several round-robin workers if its
parallelism asks for it. A keyed stage gives each of `n` workers a clone of every operator of a
chain, routes each data record by its key's hash to one worker, and broadcasts markers to all of
them. Both kinds of parallel stage end in the merge of `pipeline/markers.go`, which aligns markers.

Cancelling a run stops its goroutines at arbitrary points and drops what is left in their queues;
that is a run in which those goroutines take no further step. The counting and timing hops between
channels pass everything on in order and are left out.

`CutRun` is the injector in front of such a plan, with the barrier callbacks
recorded as they happen.
-/

namespace Weibo

/-! ## Routing -/

/-- A `KeyByOperator`; a plan is only built if it has partitions. -/
structure KeyBy where
  keySelector : Record → Bytes
  partitions : ℕ
  pos : 0 < partitions

/-- FNV-1a, 32 bits. -/
def fnv32a (key : Bytes) : UInt32 :=
  key.foldl (fun h b => (h ^^^ b.toUInt32) * 16777619) 2166136261

namespace KeyBy

/-- The worker of a key. -/
def routeKey (kb : KeyBy) (key : Bytes) : Fin kb.partitions :=
  -- an empty key is not hashed
  if key = [] ∨ kb.partitions ≤ 1 then ⟨0, kb.pos⟩
  else ⟨(fnv32a key).toNat % kb.partitions, Nat.mod_lt _ kb.pos⟩

/-- The record as the router hands it on: with the selected key. -/
def rekey (kb : KeyBy) (r : Record) : Record := { r with key := kb.keySelector r }

theorem rekey_isData (kb : KeyBy) (r : Record) : (kb.rekey r).isData = r.isData := rfl

/-- The router of a keyed stage. -/
abbrev router (kb : KeyBy) : Router Record Record.isMarker kb.partitions where
  Cursor := Unit
  route _ r := ((), kb.rekey r, kb.routeKey (kb.keySelector r))
  route_align _ _ h := h

/-- A marker reaches every worker as it is. -/
theorem lane_outs_marker (kb : KeyBy) (w : Fin kb.partitions) {r : Record}
    (hr : r.isMarker = true) (rs : List Record) :
    (kb.router.lane w).outs () (r :: rs) = r :: (kb.router.lane w).outs () rs := by
  rw [Transducer.outs, Router.lane_step_of_align _ _ _ hr]
  rfl

/-- A data record reaches the worker of its selected key. -/
theorem lane_outs_data (kb : KeyBy) (w : Fin kb.partitions) {r : Record}
    (hr : r.isMarker = false) (rs : List Record) :
    (kb.router.lane w).outs () (r :: rs) =
      (if kb.routeKey (kb.keySelector r) = w then [kb.rekey r] else []) ++
        (kb.router.lane w).outs () rs := by
  rw [Transducer.outs, Router.lane_step_of_not_align _ _ _ hr]

end KeyBy

/-- The dispatcher of a parallel stateless stage. -/
abbrev roundRobin {n : ℕ} (pos : 0 < n) : Router Record Record.isMarker n where
  Cursor := Fin n
  route next r := (⟨(next + 1) % n, Nat.mod_lt _ pos⟩, r, next)
  route_align _ _ h := h

/-! ## Stages -/

/-- The operators with state of their own. -/
inductive StatefulOperator where
  | reduce (fn : ReduceFn)
  | window (assigner : WindowAssigner) (reducer : Option ReduceFn)

/-- The operator's `Process` loop. -/
def StatefulOperator.loop (tf : TimeFormat) : StatefulOperator → OperatorLoop
  | .reduce fn => reduceLoop tf fn
  | .window assigner reducer => windowLoop tf assigner reducer

/-- A running operator with its input channel. -/
abbrev OperatorCell :=
  Cell KeyOrder Record (Option OperatorSnapshot) Record.isCut Record.isMarker

/-- A running stage: one operator, or workers between a router and a merge. -/
abbrev Stage := OperatorCell ⊕ Fork (List OperatorCell) Record Record.isMarker

/-- A step of a stage. In a parallel stage a worker's event names the operator of its chain that
    takes it. -/
abbrev StageEvent := Cell.Event KeyOrder ⊕ ForkEvent (ℕ × Cell.Event KeyOrder)

/-- What a barrier callback gets: from an operator of its own its snapshot, from a clone also its
    worker and its place in the worker's chain. -/
abbrev StageCallback := Option OperatorSnapshot ⊕ ℕ × ℕ × Option OperatorSnapshot

/-- One operator as a component. -/
def operatorComponent := Cell.component (κ := KeyOrder) (C := Option OperatorSnapshot)
  Record.isMarker_of_isCut

/-- A stage as a component. -/
def stageComponent := operatorComponent.either operatorComponent.chain.fork

/-- A sequence of stages as a component. -/
def planComponent := stageComponent.chain

/-- What a stage is built from. A stateful operator or clone starts from the state that was restored
    into it. -/
inductive StageSpec (tf : TimeFormat) : Type 1 where
  | channel (op : StatefulOperator) (init : (op.loop tf).State)
  | stateless (ops : List SingleProcessor) (parallelism : ℕ)
  | keyed (kb : KeyBy)
      (clones : List ((op : StatefulOperator) × (Fin kb.partitions → (op.loop tf).State)))

/-- The stage before its first record. -/
def StageSpec.build {tf : TimeFormat} : StageSpec tf → Stage
  | .channel op init => .inl (Cell.fresh (op.loop tf) init)
  | .stateless ops parallelism =>
    if h : 1 < parallelism then
      .inr (Fork.fresh (Nat.lt_of_succ_lt h) (roundRobin (Nat.lt_of_succ_lt h))
        ⟨0, Nat.lt_of_succ_lt h⟩ fun _ => [Cell.fresh (statelessLoop ops) ()])
    -- one worker needs neither dispatcher nor merge
    else .inl (Cell.fresh (statelessLoop ops) ())
  | .keyed kb clones =>
    .inr (Fork.fresh kb.pos kb.router () fun w =>
      clones.map fun c => Cell.fresh (c.1.loop tf) (c.2 w))

/-- What the stages of a plan are configured with. -/
def planConfig {tf : TimeFormat} (plan : List (StageSpec tf)) :=
  planComponent.config (plan.map StageSpec.build)

/-! ## The injector in front of a plan -/

/-- One run of a plan. `forwarded` is everything the injector has sent, `registered` the offsets it
    registered per barrier, `handed` every call of a barrier callback with the stage it comes from,
    and `delivered` what has come out of the last stage. -/
structure CutRun where
  injector : Injector
  stages : List Stage
  forwarded : List Record
  registered : List (String × Offsets)
  handed : List (Record × (ℕ × StageCallback))
  delivered : List Record

namespace CutRun

/-- A step of the injector or of a stage. -/
inductive Event where
  | forward (r : Record)
  | barrier (kind : BarrierKind)
  | stage (i : ℕ) (e : StageEvent)

/-- A plan at the start of a run. -/
def initial {tf : TimeFormat} (runNonce : ℕ) (plan : List (StageSpec tf)) : CutRun where
  injector := .start runNonce
  stages := plan.map StageSpec.build
  forwarded := []
  registered := []
  handed := []
  delivered := []

/-- Send a record into the first stage. -/
def send (s : CutRun) (r : Record) : CutRun :=
  let p := planComponent.push s.stages [r]
  { s with
    stages := p.1
    forwarded := s.forwarded ++ [r]
    delivered := s.delivered ++ p.2 }

/-- One event; `none` when it is not enabled. Sources make no barriers. -/
def step (s : CutRun) : Event → Option CutRun
  | .forward r =>
    if s.injector.phase ≠ .done ∧ r.isBarrier = false then
      some { s.send r with injector := s.injector.track r }
    else none
  | .barrier kind =>
    if s.injector.phase = .running then
      -- registered under the new id before the barrier is sent
      let id := s.injector.nextID kind
      some { s.send (Record.newBarrier id) with
        injector := s.injector.barrier kind
        registered := s.registered ++ [(id, s.injector.offsets)] }
    else none
  | .stage i e =>
    (planComponent.step s.stages (i, e)).map fun (stages, out, obs) =>
      { s with
        stages := stages
        delivered := s.delivered ++ out
        handed := s.handed ++ obs }

end CutRun

end Weibo
