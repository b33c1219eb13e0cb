import Weibo.ForStd.Run
import Weibo.Model.FailurePath

/-!
# Is a coordination failure final?

After a checkpoint has been aborted, or a fatal error has been reported for it, nothing should be
done for a later checkpoint of the same run: its offsets would cover output that was thrown away.
The coordinator does not enforce this. `AbortSink` lets `Write` go on before the watcher has seen
the error, and a checkpoint that is already queued is finalized like any other
(`later_checkpoint_completes`).

It does hold in runs where no later barrier gets through: `Quiet` says which
steps may not be taken.
-/

namespace Weibo

open List Option Coordinator

namespace FailurePath

variable {Snap Blob : Type} {s s' : FailurePath Snap Blob} {err : Option String}

/-- After a failure no barrier is prepared successfully, and when an error is reported no
    successfully prepared checkpoint is queued. Once the coordinator is halted neither matters. -/
def Quiet (s : FailurePath Snap Blob) : Event Snap Blob → Prop
  | .write err =>
    s.failed = true → s.coord.halted = false → s.atBarrier = true →
      (err.or s.sink.produceErr).isSome = true
  | .report => s.coord.halted = false → ∀ id ∈ s.coord.events, s.prepareFailed id = true
  | _ => True

instance (s : FailurePath Snap Blob) (e : Event Snap Blob) : Decidable (Quiet s e) :=
  match e with
  | .write err => inferInstanceAs (Decidable (_ → _ → _ → (err.or s.sink.produceErr).isSome = true))
  | .report => inferInstanceAs (Decidable (_ → ∀ id ∈ s.coord.events, s.prepareFailed id = true))
  | .arriveData | .arriveBarrier _ _ _ | .resume | .ctxDone | .endInput | .finalize | .save _
  | .abort _ | .commit _ | .complete _ | .watch | .shutdownTimeout | .stop =>
    inferInstanceAs (Decidable True)

/-! ## Whose turn it is -/

/-- The undecided checkpoint in the hands of the worker. -/
def holding : Finalize Snap Blob → Option String
  | .taken id _ | .saved id _ | .aborting id _ => some id
  | _ => none

/-- `Write` cannot take another element before `id` is decided. -/
def BlockedOn (k : TxnKafkaSink) (id : String) : Prop :=
  k.pc = .returned ∨ (k.pc = .waiting id ∧ id ∈ k.waiters)

theorem not_blockedOn_of_reading {k : TxnKafkaSink} (hpc : k.pc = .reading) (id : String) :
    ¬ BlockedOn k id := by
  rintro (hret | ⟨hwait, -⟩)
  · rw [hpc] at hret
    simp at hret
  · rw [hpc] at hwait
    simp at hwait

/-- At most one checkpoint is queued or undecided, and `Write` is blocked on it. -/
structure Turns (events : List String) (held : Option String) (k : TxnKafkaSink) : Prop where
  queued : ∀ id rest, events = id :: rest → rest = [] ∧ held = none ∧ BlockedOn k id
  held : ∀ id, held = some id → events = [] ∧ BlockedOn k id

theorem Turns.of_reading {events : List String} {held : Option String} {k : TxnKafkaSink}
    (h : Turns events held k) (hpc : ∀ id, ¬ BlockedOn k id) : events = [] ∧ held = none := by
  constructor
  · cases events with
    | nil => rfl
    | cons id rest => exact absurd (h.queued id rest rfl).2.2 (hpc id)
  · cases held with
    | none => rfl
    | some id => exact absurd (h.held id rfl).2 (hpc id)

theorem turns_nil (k : TxnKafkaSink) : Turns [] none k :=
  ⟨fun _ _ hev => absurd hev (by simp), fun _ hheld => absurd hheld (by simp)⟩

theorem Turns.mono {events : List String} {held : Option String} {k k' : TxnKafkaSink}
    (h : Turns events held k) (hk : ∀ id, BlockedOn k id → BlockedOn k' id) :
    Turns events held k' where
  queued id rest hev := by
    obtain ⟨hrest, hheld, hb⟩ := h.queued id rest hev
    exact ⟨hrest, hheld, hk id hb⟩
  held id hheld := ⟨(h.held id hheld).1, hk id (h.held id hheld).2⟩

/-- `Write` takes a barrier only when nothing is queued or undecided, and the worker takes on what
    is queued. -/
theorem turns_step {e : Event Snap Blob}
    (h : Turns s.coord.events (holding s.coord.worker) s.sink) (hs : step s e = some s') :
    Turns s'.coord.events (holding s'.coord.worker) s'.sink := by
  revert hs
  fun_cases step s e <;> intro hs <;> try cases hs
  case case5.refl err id rest hin hpc =>
    -- a barrier: `Write` was reading, so nothing is queued or undecided
    obtain ⟨hev, hheld⟩ := h.of_reading (not_blockedOn_of_reading hpc)
    have hevents : (s.coord.onSinkPrepared id (err.or s.sink.produceErr)).events =
        if s.coord.halted then [] else [id] := by
      simp [onSinkPrepared, hev]
    constructor
    · intro id' rest' hcons
      have hcons : (s.coord.onSinkPrepared id (err.or s.sink.produceErr)).events = id' :: rest' :=
        hcons
      rw [hevents] at hcons
      split at hcons
      · simp at hcons
      · cases hcons
        exact ⟨rfl, hheld, .inr ⟨rfl, mem_cons_self⟩⟩
    · intro id' hheld'
      rw [show holding s.coord.worker = some id' from hheld'] at hheld
      simp at hheld
  case case8.refl hpc hclosed =>
    -- the channel is closed, so the checkpoint `Write` waited for is decided
    have hfree : ∀ id, ¬ BlockedOn s.sink id := by
      rintro id' (hret | ⟨hwait, hmem⟩)
      · rw [hpc] at hret
        simp at hret
      · rw [hpc] at hwait
        cases hwait
        exact hclosed hmem
    obtain ⟨hev, hheld⟩ := h.of_reading hfree
    show Turns s.coord.events (holding s.coord.worker) _
    rw [hev, hheld]
    exact turns_nil _
  case case10.refl | case13.refl => exact h.mono fun _ _ => .inl rfl
  case case15 =>
    obtain ⟨c, hc, rfl⟩ := map_eq_some_iff.mp hs
    obtain ⟨-, id, rest, hev, hev', -, hcase⟩ := finalizeBegin_some hc
    obtain ⟨rfl, -, hblocked⟩ := h.queued id rest hev
    -- the worker holds the id it has taken, or nothing
    have hturns : ∀ held, (∀ id', held = some id' → id' = id) → Turns c.events held s.sink := by
      intro held hheld
      rw [hev']
      refine ⟨fun _ _ hcons => absurd hcons (by simp), fun id' hid' => ⟨rfl, ?_⟩⟩
      rw [hheld id' hid']
      exact hblocked
    apply hturns
    rcases hcase with ⟨-, -, hw⟩ | ⟨-, -, ⟨-, hw⟩ | ⟨p, -, ⟨err, e, -, hw⟩ | ⟨-, hw⟩⟩⟩ <;>
      simp [hw, holding]
  case case19.refl hw _ | case21.refl hw | case22.refl hw _ | case23.refl hw _ =>
    -- whatever comes of the abort or the commit, the checkpoint is decided
    show Turns s.coord.events none _
    rw [(h.held _ (by rw [hw]; rfl)).1]
    exact turns_nil _
  case case16.refl hw | case17.refl hw _ | case25.refl hw | case26.refl hw _ | case28.refl hw =>
    rw [hw] at h
    exact h
  all_goals exact h.mono fun _ hb => hb

/-! ## The invariant -/

/-- The worker is taking a checkpoint further. -/
def progressing : Finalize Snap Blob → Bool
  | .taken _ _ | .saved _ _ | .committed _ _ => true
  | _ => false

structure Inv (s : FailurePath Snap Blob) : Prop where
  known : ∀ id ∈ s.coord.events ++ Item.markers s.sinkIn, id ∈ s.arrived
  turns : Turns s.coord.events (holding s.coord.worker) s.sink
  order : s.log.Pairwise fun x y => x.failure?.isSome = true → y.progress?.isSome = false
  worker : s.failed = true → progressing s.coord.worker = false
  queue : s.failed = true → s.coord.halted = false → ∀ id ∈ s.coord.events, s.prepareFailed id = true

theorem Inv.events_of_reading (h : Inv s) (hpc : s.sink.pc = .reading) : s.coord.events = [] :=
  (h.turns.of_reading (not_blockedOn_of_reading hpc)).1

theorem inv_initial (txnID : String) : Inv (initial txnID : FailurePath Snap Blob) := by
  refine ⟨?_, ⟨?_, ?_⟩, Pairwise.nil, ?_, ?_⟩
  · intro id hid
    simp [initial, new] at hid
  · intro id rest hev
    simp [initial, new] at hev
  · intro id hheld
    simp [initial, new, holding] at hheld
  · intro hfailed
    simp [initial, failed] at hfailed
  · intro hfailed
    simp [initial, failed] at hfailed

/-- Progress may be logged while nothing has failed. -/
theorem order_progress (h : Inv s) (hfailed : s.failed = false) (x : Effect) :
    (s.log ++ [x]).Pairwise fun x y => x.failure?.isSome = true → y.progress?.isSome = false := by
  rw [pairwise_append]
  refine ⟨h.order, pairwise_singleton _ _, ?_⟩
  -- an earlier failure would contradict `hfailed`
  intro y hy z _ hyfail
  have hany : s.failed = true := any_eq_true.mpr ⟨y, hy, hyfail⟩
  rw [hfailed] at hany
  simp at hany

/-- A failure may always be logged. -/
theorem order_failure (h : Inv s) {x : Effect} (hx : x.progress? = none) :
    (s.log ++ [x]).Pairwise fun x y => x.failure?.isSome = true → y.progress?.isSome = false := by
  rw [pairwise_append]
  refine ⟨h.order, pairwise_singleton _ _, ?_⟩
  intro y _ z hz _
  rw [mem_singleton.mp hz, hx]
  rfl

theorem Inv.not_failed (h : Inv s) (hp : progressing s.coord.worker = true) : s.failed = false := by
  by_contra hne
  have := h.worker (by simpa using hne)
  rw [hp] at this
  simp at this

/-! ## Steps of the sink -/

theorem inv_arriveBarrier {id : String} {offsets : Blob} {state : Snap} (h : Inv s)
    (hnew : id ∉ s.arrived) :
    Inv { s with
      coord := (s.coord.onBarrierInjected id offsets).onStateSnapshot id state
      sinkIn := s.sinkIn ++ [.marker id]
      arrived := s.arrived ++ [id] } := by
  refine ⟨?_, h.turns, h.order, h.worker, ?_⟩
  · intro id' hid'
    have hid' : id' ∈ s.coord.events ++ Item.markers (s.sinkIn ++ [.marker id]) := hid'
    rw [Item.markers_append, ← append_assoc, mem_append] at hid'
    rcases hid' with hold | hlast
    · exact mem_append_left _ (h.known id' hold)
    · exact mem_append_right _ hlast
  · -- the entries of queued checkpoints are not touched
    intro hfailed hhalted id' hid'
    have hne : id' ≠ id := by
      rintro rfl
      exact hnew (h.known id' (mem_append_left _ hid'))
    unfold prepareFailed
    rw [onStateSnapshot_pending, if_neg hne, onBarrierInjected_pending,
      if_neg hne]
    exact h.queue hfailed hhalted id' hid'

theorem inv_barrier {id : String} {rest : List (Item Unit String)} (h : Inv s)
    (hq : Quiet s (.write err)) (hpc : s.sink.pc = .reading) (hin : s.sinkIn = .marker id :: rest)
    (hs : step s (.write err) = some s') : Inv s' := by
  have hturns := turns_step h.turns hs
  simp only [step, hpc, hin] at hs
  cases hs
  have hev : s.coord.events = [] := h.events_of_reading hpc
  have hevents : (s.coord.onSinkPrepared id (err.or s.sink.produceErr)).events =
      if s.coord.halted then [] else [id] := by
    simp [onSinkPrepared, hev]
  refine ⟨?_, hturns, h.order, h.worker, ?_⟩
  · intro id' hid'
    apply h.known id'
    have hid' : id' ∈ (s.coord.onSinkPrepared id (err.or s.sink.produceErr)).events ++
      Item.markers rest := hid'
    rw [hevents] at hid'
    rw [hev, hin, nil_append, Item.markers_marker]
    split at hid'
    · exact mem_cons_of_mem id hid'
    · exact hid'
  · -- after a failure only a failing prepare is let through
    intro hfailed hhalted id' hid'
    have hid' : id' ∈ (s.coord.onSinkPrepared id (err.or s.sink.produceErr)).events := hid'
    have hhalted : s.coord.halted = false := hhalted
    rw [hevents, hhalted, if_neg (by decide), mem_singleton] at hid'
    subst hid'
    have herr := hq hfailed hhalted (by simp [atBarrier, hin, Item.marker?])
    unfold prepareFailed
    rw [onSinkPrepared_pending, if_pos rfl]
    exact herr

/-! ## Steps of the finalize worker -/

theorem inv_finalize (h : Inv s) (hs : step s .finalize = some s') : Inv s' := by
  have hturns := turns_step h.turns hs
  obtain ⟨c, hc, rfl⟩ := map_eq_some_iff.mp hs
  obtain ⟨-, id, rest, hev, hev', hhalt, hcase⟩ := finalizeBegin_some hc
  obtain ⟨rfl, -, -⟩ := h.turns.queued id rest hev
  have hknown : ∀ id' ∈ c.events ++ Item.markers s.sinkIn, id' ∈ s.arrived := by
    intro id' hid'
    rw [hev', nil_append] at hid'
    exact h.known id' (mem_append_right _ hid')
  have hqueue : s.failed = true → c.halted = false → ∀ id' ∈ c.events,
      prepareFailed { s with coord := c } id' = true := by
    intro _ _ id' hid'
    rw [hev'] at hid'
    simp at hid'
  refine ⟨hknown, hturns, h.order, ?_, hqueue⟩
  -- after a failure the queued prepare has failed too, so it is not taken
  intro hfailed
  rcases hcase with ⟨-, -, hw⟩ | ⟨hh, -, ⟨-, hw⟩ | ⟨p, hp, ⟨err, e, -, hw⟩ | ⟨herr, hw⟩⟩⟩
  · simp [hw, progressing]
  · simp [hw, progressing]
  · simp [hw, progressing]
  · have hbad := h.queue hfailed hh id (by rw [hev]; exact mem_cons_self)
    rw [prepareFailed, hp, all_some, herr] at hbad
    simp at hbad

/-- A worker step that logs no failure while nothing has failed. -/
theorem inv_advance {worker : Finalize Snap Blob} {effect : List Effect} (h : Inv s)
    (hfailed : s.failed = false) (heffect : effect.any (fun x => x.failure?.isSome) = false)
    (hone : effect = [] ∨ ∃ x, effect = [x])
    (k : TxnKafkaSink) (hturns : Turns s.coord.events (holding worker) k) :
    Inv { s.advance worker effect with sink := k } := by
  have hsame : ({ s.advance worker effect with sink := k } : FailurePath Snap Blob).failed = false := by
    show (s.log ++ effect).any _ = false
    rw [any_append, heffect, Bool.or_false]
    exact hfailed
  refine ⟨h.known, hturns, ?_, ?_, ?_⟩
  · show (s.log ++ effect).Pairwise _
    rcases hone with rfl | ⟨x, rfl⟩
    · rw [append_nil]
      exact h.order
    · exact order_progress h hfailed x
  · intro hf
    rw [hsame] at hf
    simp at hf
  · intro hf
    rw [hsame] at hf
    simp at hf

/-! ## Runs -/

theorem inv_step {e : Event Snap Blob} (h : Inv s) (hq : Quiet s e) (hs : step s e = some s') :
    Inv s' := by
  have hturns := turns_step h.turns hs
  have hs' := hs
  revert hs hturns
  fun_cases step s e <;> intro hs hturns <;> try cases hs
  case case1.refl => exact ⟨by simpa using h.known, h.turns, h.order, h.worker, h.queue⟩
  case case3.refl hnew => exact inv_arriveBarrier h hnew
  case case4.refl hin _ =>
    refine ⟨?_, hturns, h.order, h.worker, h.queue⟩
    have hknown := h.known
    rwa [hin] at hknown
  case case5.refl hin hpc => exact inv_barrier h hq hpc hin hs'
  case case15 => exact inv_finalize h hs'
  -- the outcomes of saving, committing and completing
  case case16.refl hw | case21.refl hw | case23.refl hw _ | case25.refl hw =>
    exact inv_advance h (h.not_failed (by rw [hw]; rfl)) rfl (.inr ⟨_, rfl⟩) _ hturns
  case case17.refl hw _ | case22.refl hw _ | case26.refl hw _ =>
    exact inv_advance h (h.not_failed (by rw [hw]; rfl)) rfl (.inl rfl) _ hturns
  case case19.refl id _ hw _ =>
    -- the aborted checkpoint was the only one in sight, so nothing is queued
    have hev : s.coord.events = [] := (h.turns.held id (by rw [hw]; rfl)).1
    refine ⟨h.known, hturns, order_failure h rfl, fun _ => rfl, ?_⟩
    intro _ _ id' hid'
    have hid' : id' ∈ s.coord.events := hid'
    rw [hev] at hid'
    simp at hid'
  case case28.refl =>
    exact ⟨h.known, hturns, order_failure h rfl, fun _ => rfl, fun _ hhalted => hq hhalted⟩
  case case33.refl =>
    exact ⟨h.known, h.turns, h.order, h.worker, fun _ hhalted => absurd hhalted (by simp)⟩
  all_goals exact ⟨h.known, hturns, h.order, h.worker, h.queue⟩

/-- In a run where no later barrier gets through after a failure, the failure is final. -/
theorem failure_final_of_quiet {txnID : String} {es : List (Event Snap Blob)}
    (hq : Run.Along step Quiet (initial txnID) es) (h : Run.exec step (initial txnID) es = some s) : s.FailureFinal := by
  have hinv : Inv s := Run.exec_invariant_along (fun _ _ _ hi hg hs => inv_step hi hg hs)
    (inv_initial txnID) hq h
  -- after a failure there is no progress at all, for whichever checkpoint
  refine hinv.order.imp ?_
  rintro x y hxy ⟨id, hid, id', hid', -⟩
  have hprogress := hxy (isSome_iff_exists.mpr ⟨id, hid⟩)
  rw [mem_def.mp hid', isSome_some] at hprogress
  simp at hprogress

/-- The broker becomes unavailable: the prepare of the first barrier fails, and so does that of the
    second, which `Write` takes after the abort. -/
def brokerDown : List (Event ℕ ℕ) :=
  [.arriveBarrier "cp-1-1" 10 0, .arriveBarrier "cp-1-2" 20 0, .write (some "broker unavailable"),
    .finalize, .abort none, .resume, .write (some "broker unavailable"), .report, .watch,
    .finalize, .abort (some "context canceled"), .ctxDone, .report, .stop]

theorem failure_final_of_quiet_brokerDown :
    Run.Along step Quiet (initial "txn") brokerDown ∧
      ∃ s, Run.exec step (initial "txn") brokerDown = some s ∧ s.failed = true ∧
        s.FailureFinal := by
  have hquiet : Run.Along step Quiet (initial "txn") brokerDown := by decide
  have hfailed : (Run.exec step (initial "txn") brokerDown).map failed = some true := by decide
  obtain ⟨s, hs, hfailed⟩ := map_eq_some_iff.mp hfailed
  exact ⟨hquiet, s, hs, hfailed, failure_final_of_quiet hquiet hs⟩

/-! ## The race -/

/-- The prepare of the first barrier fails. `AbortSink` unblocks `Write`, which prepares the second
    barrier before the watcher has cancelled the run. -/
def abortRace : List (Event ℕ ℕ) :=
  [.arriveBarrier "cp-1-1" 10 0, .arriveBarrier "cp-1-2" 20 0, .write (some "broker unavailable"),
    .finalize, .abort none, .resume, .write none, .report, .finalize, .save none, .commit .ok,
    .complete none]

/-- The checkpoint behind the aborted one is saved, committed and completed. -/
theorem later_checkpoint_completes :
    ∃ s, Run.exec step (initial "txn") abortRace = some s ∧
      s.arrived = ["cp-1-1", "cp-1-2"] ∧
      s.log = [.aborted "cp-1-1", .reported "cp-1-1", .saved "cp-1-2", .committed "cp-1-2",
        .completed "cp-1-2"] ∧ ¬ s.FailureFinal := by
  have hfacts : (Run.exec step (initial "txn") abortRace).map
      (fun s => (s.arrived, s.log, decide s.FailureFinal)) =
        some (["cp-1-1", "cp-1-2"], [.aborted "cp-1-1", .reported "cp-1-1", .saved "cp-1-2",
          .committed "cp-1-2", .completed "cp-1-2"], false) := by decide
  obtain ⟨s, hs, hfacts⟩ := map_eq_some_iff.mp hfacts
  simp only [Prod.mk.injEq] at hfacts
  exact ⟨s, hs, hfacts.1, hfacts.2.1, of_decide_eq_false hfacts.2.2⟩

end FailurePath

end Weibo
