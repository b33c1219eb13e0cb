import Weibo.Model.CoordinatedRun

/-!
# The invariant of a coordinated pipeline

The invariant behind exactly-once output has three parts.  `Durable` is about what survives a crash: the
visible output is a cut, and every stored checkpoint describes the cut at its
barrier.  `Settled` and `Unsettled` say how the two pointer files relate to the
last committed transaction.  `RunOk` is about a running process: reading its
queues from the visible output leads to the output of the records consumed so
far, passing each barrier at its own cut.
-/

namespace Weibo

open List

namespace Broker

variable {Out : Type} (b : Broker Out)

/-- The output records of the open transaction. -/
def staged : List Out := b.txn.filterMap TxnEntry.record?

@[simp] theorem visible_commit : b.commit.visible = b.visible ++ b.staged := by
  simp [visible, commit, staged]

@[simp] theorem markers_commit :
    b.commit.markers = b.markers ++ b.txn.filterMap TxnEntry.marker? := by
  simp [markers, commit]

@[simp] theorem staged_commit : b.commit.staged = [] := rfl

@[simp] theorem staged_produce_record (o : Out) :
    (b.produce (.record o)).staged = b.staged ++ [o] := by
  simp [staged, produce, TxnEntry.record?]

@[simp] theorem staged_produce_marker (id : String) :
    (b.produce (.marker id)).staged = b.staged := by
  simp [staged, produce, TxnEntry.record?]

end Broker

namespace Pipeline

variable {Rec Out σ Snap Blob : Type} (P : Pipeline Rec Out σ Snap Blob)
  {barriers : String → Option ℕ} {id : String}

/-! ## Cuts of the input -/

theorem stateAt_succ {n : ℕ} {a : Rec} (h : P.input[n]? = some a) :
    P.stateAt (n + 1) = (P.operators.step (P.stateAt n) a).1 := by
  rw [stateAt, take_add_one, h, Option.toList_some, Transducer.state_snoc, stateAt]

theorem outputs_succ {n : ℕ} {a : Rec} (h : P.input[n]? = some a) :
    P.outputs (n + 1) = P.outputs n ++ (P.operators.step (P.stateAt n) a).2 := by
  rw [outputs, take_add_one, h, Option.toList_some, Transducer.outs_snoc, outputs, stateAt]

/-- What is recorded for a checkpoint restores to the cut at its barrier. -/
structure Describes (barriers : String → Option ℕ) (id : String) (source : Option Blob)
    (operators : Option Snap) : Prop where
  placed : (barriers id).isSome
  source_eq : source.map P.restoreOffset = barriers id
  operators_eq : operators.map P.restore = (barriers id).map P.stateAt

/-- Reading the operators' queue: a position is a number of input records. -/
abbrev Feeds (barriers : String → Option ℕ) : ℕ → List (Item Rec String) → ℕ → Prop :=
  Item.Walk (fun n a m => P.input[n]? = some a ∧ m = n + 1) (fun id n => barriers id = some n)

/-- Reading the sink's queue: a position is the output emitted so far. -/
abbrev Drains (barriers : String → Option ℕ) : List Out → List (Item Out String) → List Out → Prop :=
  Item.Walk (fun t o u => u = t ++ [o]) (fun id t => ∃ n, barriers id = some n ∧ t = P.outputs n)

/-- Emitting records extends both the queue and the output at its end. -/
theorem drains_append_data {t u : List Out}
    {q : List (Item Out String)} (h : P.Drains barriers t q u) (os : List Out) :
    P.Drains barriers t (q ++ os.map .data) (u ++ os) := by
  induction os generalizing q u with
  | nil => simpa using h
  | cons o os ih =>
    have hsnoc : P.Drains barriers t (q ++ [.data o]) (u ++ [o]) := Item.walk_snoc_data h rfl
    have := ih hsnoc
    rwa [append_assoc, append_assoc] at this

/-- Positions of barriers are only ever added. -/
def Extends (barriers barriers' : String → Option ℕ) : Prop :=
  ∀ id, (barriers id).isSome → barriers' id = barriers id

theorem extends_update (h : barriers id = none) (n : ℕ) : Extends barriers (Function.update barriers id (some n)) := by
  intro id' hid'
  have hne : id' ≠ id := by
    rintro rfl
    rw [h] at hid'
    exact absurd hid' (by decide)
  exact Function.update_of_ne hne _ _

section Extends

variable {P} {barriers barriers' : String → Option ℕ} (hext : Extends barriers barriers')

include hext

theorem Extends.eq_some {n : ℕ} (h : barriers id = some n) :
    barriers' id = some n := by
  rw [hext id (by rw [h]; rfl), h]

theorem Describes.extends {source : Option Blob} {operators : Option Snap}
    (h : P.Describes barriers id source operators) :
    P.Describes barriers' id source operators := by
  have hid := hext id h.placed
  refine ⟨?_, ?_, ?_⟩
  · rw [hid]; exact h.placed
  · rw [hid]; exact h.source_eq
  · rw [hid]; exact h.operators_eq

theorem Feeds.extends {n m : ℕ} {q : List (Item Rec String)} (h : P.Feeds barriers n q m) :
    P.Feeds barriers' n q m :=
  Item.walk_mono (fun _ _ _ hid => hext.eq_some hid) h

theorem Drains.extends {t u : List Out} {q : List (Item Out String)} (h : P.Drains barriers t q u) : P.Drains barriers' t q u :=
  Item.walk_mono (fun _ _ _ ⟨n, hid, ht⟩ => ⟨n, hext.eq_some hid, ht⟩) h

/-- Later barriers do not move the last committed one. -/
theorem lastCommitted_extends {b : Broker Out} (h : ∀ id ∈ b.markers, (barriers id).isSome) :
    b.lastCommitted barriers' = b.lastCommitted barriers := by
  unfold Broker.lastCommitted
  cases hlast : b.markers.getLast? with
  | none => rfl
  | some id =>
    have hid : barriers' id = barriers id := hext id (h id (mem_of_getLast? hlast))
    simp [hid]

end Extends

/-! ## What survives a crash -/

/-- The visible output is a cut, and every stored checkpoint describes one. -/
structure Durable (fs : FileStorage Snap Blob) (b : Broker Out) (nonces : List ℕ)
    (barriers : String → Option ℕ) : Prop where
  visible_eq : b.visible = P.outputs (b.lastCommitted barriers)
  nodup : b.markers.Nodup
  placed : ∀ id ∈ b.markers, (barriers id).isSome
  issued : ∀ id, (barriers id).isSome → ∃ n ∈ nonces, ∃ i k, id = mkID n i k
  stored : ∀ id d, fs.checkpoints id = some d →
    d.id = id ∧ P.Describes barriers id d.source d.operators

/-- The pointer files agree with the last committed transaction: the newest checkpoint is either the
    last committed one or a prepared one whose transaction never committed. -/
structure Settled (fs : FileStorage Snap Blob) (markers : List String) : Prop where
  completed_eq : fs.latestCompleted = markers.getLast?
  present : ∀ id, fs.latestCompleted = some id → (fs.checkpoints id).isSome
  load_none : fs.load = none → markers.getLast? = none
  load_some : ∀ d, fs.load = some d →
    (d.completed = true ∧ markers.getLast? = some d.id) ∨ (d.status = .prepared ∧ d.id ∉ markers)

/-- The transaction of `id` has committed and its checkpoint is still prepared. -/
structure Unsettled (fs : FileStorage Snap Blob) (markers : List String) (id : String) : Prop where
  latest : fs.latest = some id
  stored : ∃ d, fs.checkpoints id = some d ∧ d.status = .prepared
  last : markers.getLast? = some id

/-- Where a process started from `cp` resumes: at the last committed cut. -/
structure Resumes (cp : Option (CheckpointData Snap Blob)) (n : ℕ) : Prop where
  offset : ((cp.bind CheckpointData.source).map P.restoreOffset).getD 0 = n
  state : ((cp.bind CheckpointData.operators).map P.restore).getD P.init = P.stateAt n

/-! ## A running process -/

/-- The barriers on their way, the one closest to its commit first. -/
def inFlight (r : Running Rec Out σ Snap Blob) : List String :=
  r.waiting.toList ++ (Item.markers r.sinkIn ++ (Item.markers r.tapIn ++ Item.markers r.opsIn))

/-- Barriers on their way have ids of their own, none of them committed, and the injector's next id
    is new. -/
structure IdsOk (markers : List String) (nonces : List ℕ) (barriers : String → Option ℕ)
    (r : Running Rec Out σ Snap Blob) : Prop where
  nonce : r.runNonce ∈ nonces
  counted : ∀ i k, (barriers (mkID r.runNonce i k)).isSome → i ≤ r.checkpointID
  distinct : (inFlight r).Nodup
  uncommitted : ∀ id ∈ inFlight r, id ∉ markers
  placed : ∀ id ∈ inFlight r, (barriers id).isSome

/-- The queues lead from the visible output to the output of the records the operators have
    consumed, and from there to what has been forwarded. -/
structure Flowing (b : Broker Out) (barriers : String → Option ℕ)
    (r : Running Rec Out σ Snap Blob) (n : ℕ) : Prop where
  state : r.opState = P.stateAt n
  feeds : P.Feeds barriers n r.opsIn r.pos
  drains : P.Drains barriers (b.visible ++ b.staged) (r.sinkIn ++ r.tapIn) (P.outputs n)
  marked : b.txn.filterMap TxnEntry.marker? = r.waiting.toList
  waits : ∀ id, r.waiting = some id →
    ∃ m, barriers id = some m ∧ b.visible ++ b.staged = P.outputs m

/-- The sink has returned and nothing is left in the queues. -/
structure Closed (r : Running Rec Out σ Snap Blob) : Prop where
  phase : r.phase = .done
  opsIn : r.opsIn = []
  tapIn : r.tapIn = []
  sinkIn : r.sinkIn = []
  waiting : r.waiting = none

/-- What has been registered for the barriers that have not reached the end of the sink's queue. -/
structure Registered (barriers : String → Option ℕ) (r : Running Rec Out σ Snap Blob) : Prop where
  healthy : ∀ id p, r.coord.pending id = some p → p.sinkErr = none
  offsets : ∀ id ∈ Item.markers r.sinkIn ++ (Item.markers r.tapIn ++ Item.markers r.opsIn),
    ((r.coord.pending id).bind PendingCheckpoint.offsets).map P.restoreOffset = barriers id
  states : ∀ id ∈ Item.markers r.sinkIn,
    ((r.coord.pending id).bind PendingCheckpoint.state).map P.restore =
      (barriers id).map P.stateAt
  snaps : ∀ id ∈ Item.markers r.tapIn,
    (r.barrierSnaps id).map P.restore = (barriers id).map P.stateAt

/-- The finalize worker is not holding a checkpoint that is still to commit. -/
def Free : Finalize Snap Blob → Prop
  | .idle | .committed _ _ => True
  | _ => False

/-- The sink waits for at most one checkpoint, which is either queued for the worker or held by
    it. -/
def Handover (barriers : String → Option ℕ) (r : Running Rec Out σ Snap Blob) : Prop :=
  match r.waiting with
  | none => r.coord.events = [] ∧ Free r.coord.worker
  | some id =>
    (r.coord.events = [id] ∧ Free r.coord.worker ∧
      ∃ p, r.coord.pending id = some p ∧ P.Describes barriers id p.offsets p.state) ∨
    (r.coord.events = [] ∧ ∃ p, P.Describes barriers id p.offsets p.state ∧
      (r.coord.worker = .taken id p ∨ r.coord.worker = .saved id p))

/-- The pointer files at each step of the finalize worker. -/
def Pointers (fs : FileStorage Snap Blob) (markers : List String) : Finalize Snap Blob → Prop
  | .committed id _ => Unsettled fs markers id
  | .saved id _ => Settled fs markers ∧ fs.latest = some id ∧
      ∃ d, fs.checkpoints id = some d ∧ d.status = .prepared
  | _ => Settled fs markers

/-- The invariant of a running process. -/
structure RunOk (fs : FileStorage Snap Blob) (b : Broker Out) (nonces : List ℕ)
    (barriers : String → Option ℕ) (r : Running Rec Out σ Snap Blob) : Prop where
  ids : IdsOk b.markers nonces barriers r
  flow : (∃ n, P.Flowing b barriers r n) ∨ Closed r
  registered : P.Registered barriers r
  running : r.coord.halted = false
  handover : P.Handover barriers r
  pointers : Pointers fs b.markers r.coord.worker

/-- The invariant of each phase. -/
def PhaseOk (fs : FileStorage Snap Blob) (b : Broker Out) (nonces : List ℕ)
    (barriers : String → Option ℕ) : Phase Rec Out σ Snap Blob → Prop
  | .down => Settled fs b.markers ∨ ∃ id, Unsettled fs b.markers id
  | .resolving d => fs.load = some d ∧ d.status = .prepared ∧
      (Settled fs b.markers ∨ ∃ id, Unsettled fs b.markers id)
  | .promoting d => fs.load = some d ∧ Unsettled fs b.markers d.id
  | .aborting _ => Settled fs b.markers
  | .discarded => Settled fs b.markers
  | .selected cp => Settled fs b.markers ∧ P.Resumes cp (b.lastCommitted barriers)
  | .running r => P.RunOk fs b nonces barriers r

variable {P} {r r' : Running Rec Out σ Snap Blob} {markers : List String} {nonces : List ℕ}

/-- The ids on their way only depend on the queues taken together. -/
theorem IdsOk.congr (h : IdsOk markers nonces barriers r) (hn : r'.runNonce = r.runNonce)
    (hc : r'.checkpointID = r.checkpointID) (hf : inFlight r' = inFlight r) : IdsOk markers nonces barriers r' where
  nonce := hn ▸ h.nonce
  counted := by rw [hn, hc]; exact h.counted
  distinct := hf ▸ h.distinct
  uncommitted := hf ▸ h.uncommitted
  placed := hf ▸ h.placed

/-- The id of the injector's next barrier has not been used. -/
theorem IdsOk.fresh (h : IdsOk markers nonces barriers r) (kind : BarrierKind) :
    barriers (mkID r.runNonce (r.checkpointID + 1) kind) = none := by
  by_contra hne
  -- a used id would have a number up to the counter
  have hle := h.counted (r.checkpointID + 1) kind (Option.isSome_iff_ne_none.mpr hne)
  omega

/-- A queued barrier is not the one the sink waits for. -/
theorem IdsOk.ne_waiting
    (h : IdsOk markers nonces barriers r) (hw : r.waiting = some id) {id' : String}
    (hid' : id' ∈ Item.markers r.sinkIn ++ (Item.markers r.tapIn ++ Item.markers r.opsIn)) :
    id' ≠ id := by
  have hd := h.distinct
  rw [inFlight, hw, Option.toList_some, singleton_append, nodup_cons] at hd
  rintro rfl
  exact hd.1 hid'

/-- A barrier with a new id joins the ones on their way. -/
theorem IdsOk.snoc {kind : BarrierKind} (h : IdsOk markers nonces barriers r)
    (hplaced : ∀ id ∈ markers, (barriers id).isSome)
    (hid : mkID r.runNonce (r.checkpointID + 1) kind = id) (hn : r'.runNonce = r.runNonce)
    (hc : r'.checkpointID = r.checkpointID + 1) (hf : inFlight r' = inFlight r ++ [id]) (n : ℕ) :
    IdsOk markers nonces (Function.update barriers id (some n)) r' := by
  have hfresh : barriers id = none := hid ▸ h.fresh kind
  have hext := extends_update hfresh n
  -- every barrier placed so far has another id
  have hnew : ∀ id', (barriers id').isSome → id' ≠ id := by
    rintro id' hid' rfl
    rw [hfresh] at hid'
    exact absurd hid' (by decide)
  have hmem : ∀ id' ∈ inFlight r', id' ∈ inFlight r ∨ id' = id := by
    intro id' hid'
    rw [hf, List.mem_append, mem_singleton] at hid'
    exact hid'
  refine ⟨hn ▸ h.nonce, ?_, ?_, ?_, ?_⟩
  · intro i k hi
    rw [hn] at hi
    rw [hc]
    -- the id itself has the new number, all others are older
    by_cases heq : mkID r.runNonce i k = id
    · have hi : i = r.checkpointID + 1 := (mkID_injective (heq.trans hid.symm)).2.1
      omega
    · rw [Function.update_of_ne heq] at hi
      have := h.counted i k hi
      omega
  · rw [hf, nodup_append]
    refine ⟨h.distinct, nodup_singleton id, ?_⟩
    intro id' hid' id'' hid''
    rw [mem_singleton.mp hid'']
    exact hnew id' (h.placed id' hid')
  · intro id' hid' hmark
    rcases hmem id' hid' with hold | rfl
    · exact h.uncommitted id' hold hmark
    · exact hnew id' (hplaced id' hmark) rfl
  · intro id' hid'
    rcases hmem id' hid' with hold | rfl
    · rw [hext id' (h.placed id' hold)]
      exact h.placed id' hold
    · rw [Function.update_self]
      rfl

/-- A step that leaves the worker and its queue alone, and the entry of the checkpoint the sink
    waits for, keeps the handover. -/
theorem Handover.extends {barriers' : String → Option ℕ} (h : P.Handover barriers r)
    (hext : Extends barriers barriers') (hw : r'.waiting = r.waiting)
    (hev : r'.coord.events = r.coord.events) (hwork : r'.coord.worker = r.coord.worker)
    (hpend : ∀ id, r.waiting = some id → r'.coord.pending id = r.coord.pending id) :
    P.Handover barriers' r' := by
  unfold Handover at h ⊢
  rw [hw, hev, hwork]
  cases hwait : r.waiting with
  | none =>
    rw [hwait] at h
    exact h
  | some id =>
    rw [hwait] at h
    rcases h with ⟨hev, hfree, p, hp, hdesc⟩ | ⟨hev, p, hdesc, hheld⟩
    · exact .inl ⟨hev, hfree, p, (hpend id hwait).trans hp, hdesc.extends hext⟩
    · exact .inr ⟨hev, p, hdesc.extends hext, hheld⟩

/-- A queued id is the one the sink waits for, with all its parts registered. -/
theorem Handover.of_queued {rest : List String} (h : P.Handover barriers r)
    (hev : r.coord.events = id :: rest) :
    r.waiting = some id ∧ rest = [] ∧
      ∃ p, r.coord.pending id = some p ∧ P.Describes barriers id p.offsets p.state := by
  unfold Handover at h
  cases hwait : r.waiting with
  | none =>
    rw [hwait] at h
    rw [h.1] at hev
    simp at hev
  | some id₀ =>
    rw [hwait] at h
    rcases h with ⟨hev₀, -, hp⟩ | ⟨hev₀, -⟩
    · rw [hev₀] at hev
      cases hev
      exact ⟨rfl, rfl, hp⟩
    · rw [hev₀] at hev
      simp at hev

/-- A checkpoint the worker holds before its commit is the one the sink waits for. -/
theorem Handover.of_held {p : PendingCheckpoint Snap Blob} (h : P.Handover barriers r)
    (hheld : r.coord.worker = .taken id p ∨ r.coord.worker = .saved id p) :
    r.waiting = some id ∧ r.coord.events = [] ∧ P.Describes barriers id p.offsets p.state := by
  -- so the id is not queued any more
  have hnot : ¬ Free r.coord.worker := by
    rcases hheld with hw | hw <;> rw [hw] <;> exact not_false
  unfold Handover at h
  cases hwait : r.waiting with
  | none =>
    rw [hwait] at h
    exact absurd h.2 hnot
  | some id₀ =>
    rw [hwait] at h
    rcases h with ⟨-, hfree, -⟩ | ⟨hev, p₀, hdesc, hheld₀⟩
    · exact absurd hfree hnot
    · have heq : id₀ = id ∧ p₀ = p := by
        rcases hheld with hw | hw <;> rw [hw] at hheld₀ <;> simpa [eq_comm] using hheld₀
      obtain ⟨rfl, rfl⟩ := heq
      exact ⟨rfl, hev, hdesc⟩

/-- The queues do not depend on what the coordinator does. -/
theorem flow_withCoord {b : Broker Out} (c : Coordinator Snap Blob)
    (h : (∃ n, P.Flowing b barriers r n) ∨ Closed r) :
    (∃ n, P.Flowing b barriers { r with coord := c } n) ∨ Closed { r with coord := c } := by
  rcases h with ⟨n, hn⟩ | hc
  · exact .inl ⟨n, hn.state, hn.feeds, hn.drains, hn.marked, hn.waits⟩
  · exact .inr ⟨hc.phase, hc.opsIn, hc.tapIn, hc.sinkIn, hc.waiting⟩

/-- The invariant of the whole system. -/
structure Inv (P : Pipeline Rec Out σ Snap Blob) (w : World Rec Out σ Snap Blob) : Prop where
  durable : P.Durable w.storage w.broker w.nonces w.barriers
  phase : P.PhaseOk w.storage w.broker w.nonces w.barriers w.phase

end Pipeline

end Weibo
