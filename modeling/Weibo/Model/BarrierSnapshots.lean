import Weibo.Model.Record

/-!
# Assembling a checkpoint's state (`addBarrierSnapshot`, `collectSnapshots` in `mailer.go`)

Stateful operators and clones deliver their state while a barrier passes them; the environment keeps
it per checkpoint until the barrier reaches the end of the pipeline, where the checkpoint is
assembled. The map of kept checkpoints is bounded: the first delivery for a new checkpoint evicts
another one when more than eight are kept. What is missing at assembly is snapshotted then, from
live state.

`SnapshotRun` interleaves the deliveries of any number of barriers with live
state moving on and with assembly.
-/

namespace Weibo

/-- Serialized operator state; the Go slice may be nil. -/
abbrev StateBytes := Option Bytes

/-- The owner of top-level operator number `i`. -/
def opKey (i : ℕ) : String := "op-" ++ i.repr

/-- The owner of clone number `i`. -/
def workerKey (i : ℕ) : String := "worker-" ++ i.repr

/-- The operators of an environment. For a top-level operator the flag says whether it delivers its
    state at barriers, which a clone always does. -/
structure SnapshotOwners where
  operators : List Bool
  workerOps : ℕ

namespace SnapshotOwners

/-- All owners, in the order in which assembly visits them. -/
def keys (o : SnapshotOwners) : List String :=
  (List.range o.operators.length).map opKey ++ (List.range o.workerOps).map workerKey

/-- The owners that deliver at barriers. -/
def snapshotters (o : SnapshotOwners) : List String :=
  ((List.range o.operators.length).filter fun i => o.operators.getD i false).map opKey ++
    (List.range o.workerOps).map workerKey

end SnapshotOwners

/-- The kept snapshots: checkpoint id, then owner. -/
abbrev BarrierSnaps := GoMap (GoMap StateBytes)

/-- Keep a delivered snapshot. `stale` is the entry that the range loop over the map happens to
    visit first. -/
def addBarrierSnapshot (snaps : BarrierSnaps) (stale checkpointID key : String)
    (snapshot : StateBytes) : BarrierSnaps :=
  match snaps.lookup checkpointID with
  | some kept => snaps.insert checkpointID (kept.insert key snapshot)
  | none =>
    -- the loop over the map deletes the first entry it visits and breaks
    let snaps := if 8 < snaps.keys.length then snaps.erase stale else snaps
    snaps.insert checkpointID ((∅ : GoMap StateBytes).insert key snapshot)

/-- Snapshot the owners that have none yet. -/
def fillMissing (live : String → StateBytes) (keys : List String) (snaps : GoMap StateBytes) :
    GoMap StateBytes :=
  keys.foldl (fun m key => if (m.lookup key).isSome then m else m.insert key (live key)) snaps

/-- Take a state-ref marker out of the snapshots: its owner is listed in the state directories and
    keeps no inline state. -/
def extractEntry (stateRef : StateBytes → Option String)
    (acc : GoMap StateBytes × GoMap String) (e : (_ : String) × StateBytes) :
    GoMap StateBytes × GoMap String :=
  match stateRef e.2 with
  | some ref => (acc.1.insert e.1 none, acc.2.insert ref e.1)
  | none => acc

/-- Take all state-ref markers out of the snapshots. -/
def extractStateDirs (stateRef : StateBytes → Option String) (snaps : GoMap StateBytes) :
    GoMap StateBytes × GoMap String :=
  snaps.entries.foldl (extractEntry stateRef) (snaps, ∅)

/-- Assemble a checkpoint: the map that is left, the inline states and the state directories. -/
def collectSnapshots (o : SnapshotOwners) (stateRef : StateBytes → Option String)
    (live : String → StateBytes) (snaps : BarrierSnaps) (checkpointID : String) :
    BarrierSnaps × (GoMap StateBytes × GoMap String) :=
  -- an evicted checkpoint looks like one nobody has delivered for
  let kept := (snaps.lookup checkpointID).getD ∅
  (snaps.erase checkpointID, extractStateDirs stateRef (fillMissing live o.keys kept))

/-- How a marker is read: the reference in it, if the bytes are JSON with a nonempty one. A nil
    slice is no JSON. -/
structure StateRefReader where
  stateRef : StateBytes → Option String
  stateRef_nil : stateRef none = none

/-- An assembled checkpoint, with what had been delivered for it by then. -/
structure Assembled where
  id : String
  delivered : String → Option StateBytes
  snaps : GoMap StateBytes
  dirs : GoMap String

/-- The environment while barriers pass. `live` is what a snapshot of an owner would give now;
    `delivered` and `collected` are history. -/
structure SnapshotRun where
  barrierSnaps : BarrierSnaps
  live : String → StateBytes
  delivered : String → String → Option StateBytes
  collected : List Assembled

namespace SnapshotRun

/-- An owner delivers its state for a barrier, its live state moves on, or a checkpoint is
    assembled. -/
inductive Event where
  | deliver (id key : String) (snapshot : StateBytes) (stale : String)
  | advance (key : String) (snapshot : StateBytes)
  | collect (id : String)

/-- Before the first barrier. -/
def initial : SnapshotRun := ⟨∅, fun _ => none, fun _ _ => none, []⟩

variable (o : SnapshotOwners) (sr : StateRefReader)

/-- One event; `none` when it is not enabled. A barrier passes an owner once and the end of the
    pipeline once, and a marker names its owner. -/
def step (s : SnapshotRun) : Event → Option SnapshotRun
  | .deliver id key snapshot stale =>
    if key ∈ o.snapshotters ∧ s.delivered id key = none ∧ (sr.stateRef snapshot).getD key = key ∧
        (8 < s.barrierSnaps.keys.length → stale ∈ s.barrierSnaps.keys) then
      some { s with
        barrierSnaps := addBarrierSnapshot s.barrierSnaps stale id key snapshot
        delivered := Function.update s.delivered id
          (Function.update (s.delivered id) key (some snapshot)) }
    else none
  | .advance key snapshot =>
    if (sr.stateRef snapshot).getD key = key then
      some { s with live := Function.update s.live key snapshot }
    else none
  | .collect id =>
    if id ∈ s.collected.map Assembled.id then none
    else
      let r := collectSnapshots o sr.stateRef s.live s.barrierSnaps id
      some { s with
        barrierSnaps := r.1
        collected := s.collected ++ [⟨id, s.delivered id, r.2.1, r.2.2⟩] }

/-- The assembled checkpoint has for an owner exactly what it delivered: the bytes, or for a marker
    the state directory it names. -/
def Keeps (a : Assembled) (key : String) (snapshot : StateBytes) : Prop :=
  match sr.stateRef snapshot with
  | none => a.snaps.lookup key = some snapshot
  | some ref => a.snaps.lookup key = some none ∧ a.dirs.lookup ref = some key

/-- Every checkpoint that was assembled after all owners had delivered for it has what they
    delivered. -/
def AllKept (s : SnapshotRun) : Prop :=
  ∀ a ∈ s.collected, (∀ key ∈ o.snapshotters, (a.delivered key).isSome) →
    ∀ key ∈ o.snapshotters, ∀ snapshot, a.delivered key = some snapshot →
      Keeps sr a key snapshot

/-- The first delivery for a checkpoint finds at most eight others kept. -/
def FewKept (s : SnapshotRun) : Event → Prop
  | .deliver id _ _ _ => s.barrierSnaps.lookup id = none → s.barrierSnaps.keys.length ≤ 8
  | _ => True

instance (s : SnapshotRun) (e : Event) : Decidable (FewKept s e) :=
  match e with
  | .deliver id _ _ _ =>
    inferInstanceAs
      (Decidable (s.barrierSnaps.lookup id = none → s.barrierSnaps.keys.length ≤ 8))
  | .advance _ _ => isTrue trivial
  | .collect _ => isTrue trivial

end SnapshotRun

end Weibo
