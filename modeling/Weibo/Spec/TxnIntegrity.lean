import Weibo.Model.TxnSink
import Weibo.Spec.CoordinationFailure

/-!
# One error latch, one transaction

The error latch of the transactional sink is set by the `Write` loop and by callbacks on
other goroutines, read when a barrier has been flushed, and reset by `Commit` and `Abort`
on the finalize worker.  In every interleaving it stands for the open transaction: while
`Write` reads, the latch is set exactly if a record behind the last barrier has failed
(`Latched`).  Between the report of a prepare and its decision `Write` is blocked, and when
the latch is reset no callback is outstanding (`Waits`).

## Key results

- `inv_step`: one step of one process
- `txn_integrity`: what is committed has no failed record, and a prepare is reported
  without an error if its flush succeeded and none of its own records failed
-/

namespace Weibo

open List FailurePath TxnLedger

namespace TxnRun

open FailurePath (Turns holding BlockedOn)

/-! ## The invariant -/

/-- While `Write` reads, what the client holds is of the current interval, and so is the latched
    error. -/
structure Latched (sink : TxnKafkaSink) (l : TxnLedger) : Prop where
  held : ∀ n ∈ l.inflight ++ l.staged, n = l.current
  failed : ∀ n ∈ l.failures, n ≤ l.current
  latch : sink.produceErr = none ↔ l.current ∉ l.failures

/-- While `Write` waits for `id`, what the client holds is of the interval of `id`. Once it is
    decided the client holds nothing and the latch is reset. -/
structure Waits (id : String) (sink : TxnKafkaSink) (l : TxnLedger) : Prop where
  last : ∃ pre, l.barriers = pre ++ [id]
  failed : ∀ n ∈ l.failures, n < l.current
  undecided : id ∈ sink.waiters → ∀ n ∈ l.inflight ++ l.staged, n = l.interval id
  decided : id ∉ sink.waiters → l.inflight = [] ∧ l.staged = [] ∧ sink.produceErr = none

structure SinkOk (sinkIn : List (Item Unit String)) (sink : TxnKafkaSink) (arrived : List String)
    (l : TxnLedger) : Prop where
  order : l.barriers ++ Item.markers sinkIn = arrived
  nodup : arrived.Nodup
  flushing : ∀ id, l.flushing = some id → sink.pc = .reading ∧ ∃ rest, sinkIn = .marker id :: rest
  reading : sink.pc = .reading → Latched sink l
  waiting : ∀ id, sink.pc = .waiting id → Waits id sink l

/-- The prepare of `id` has been reported without an error. -/
def Cleared (l : TxnLedger) (id : String) : Prop := ∃ r ∈ l.prepares, r.id = id ∧ r.err = none

/-- A report without an error is final: no record of the interval has failed, and none is in flight.
    A report with an error has its reason in the flush or in the interval. -/
def PreparesOk (l : TxnLedger) : Prop :=
  ∀ r ∈ l.prepares, r.id ∈ l.barriers ∧
    (r.err = none → l.interval r.id ∉ l.failures ∧ l.interval r.id ∉ l.inflight) ∧
    (r.flushErr = none → l.interval r.id ∉ l.failures → r.err = none)

/-- The coordinator goes on only with what has been reported without an error, and what is not
    decided is in the open transaction. -/
structure CoordOk {Snap Blob : Type} (c : Coordinator Snap Blob) (l : TxnLedger) : Prop where
  queued : ∀ id ∈ c.events, ∃ p, c.pending id = some p ∧ ∃ r ∈ l.prepares, r.id = id ∧ r.err = p.sinkErr
  working : ∀ id p, c.worker = .taken id p ∨ c.worker = .saved id p → Cleared l id
  staged : ∀ id, id ∈ c.events ∨ holding c.worker = some id → ∀ n ∈ l.staged, n = l.interval id

/-- What has been committed had been reported without an error. -/
def CommitsOk (l : TxnLedger) : Prop :=
  ∀ c ∈ l.commits, Cleared l c.1 ∧ ∀ n ∈ c.2, n = l.interval c.1

structure Inv {Snap Blob : Type} (s : TxnRun Snap Blob) : Prop where
  turns : Turns s.path.coord.events (holding s.path.coord.worker) s.path.sink
  sink : SinkOk s.path.sinkIn s.path.sink s.path.arrived s.ledger
  prepares : PreparesOk s.ledger
  coord : CoordOk s.path.coord s.ledger
  commits : CommitsOk s.ledger

variable {Snap Blob : Type} {s s' : TxnRun Snap Blob} {path : FailurePath Snap Blob}
  {err : Option String} {id : String}

theorem inv_initial (txnID : String) : Inv (initial txnID : TxnRun Snap Blob) where
  turns := turns_nil _
  sink := by
    refine ⟨rfl, nodup_nil, fun id h => absurd h (by simp [initial, new]), fun _ => ?_,
      fun id h => absurd h (by simp [initial, FailurePath.initial])⟩
    exact ⟨by simp [initial, new], by simp [initial, new],
      by simp [initial, FailurePath.initial, new]⟩
  prepares := by simp [PreparesOk, initial, new]
  coord := by
    refine ⟨?_, ?_, ?_⟩ <;> simp [initial, FailurePath.initial, Coordinator.new, new]
  commits := by simp [CommitsOk, initial, new]

/-! ## Steps that do not touch the client -/

theorem SinkOk.known (h : SinkOk s.path.sinkIn s.path.sink s.path.arrived s.ledger)
    (hid : id ∈ s.ledger.barriers) : id ∈ s.path.arrived :=
  h.order ▸ mem_append_left _ hid

/-- The worker is not at a checkpoint that it may commit. -/
theorem CoordOk.of_same {c c' : Coordinator Snap Blob} {l : TxnLedger} (h : CoordOk c l)
    (hevents : c'.events = c.events) (hpending : c'.pending = c.pending)
    (hworker : c'.worker = c.worker ∨ holding c'.worker = none) : CoordOk c' l := by
  refine ⟨?_, ?_, ?_⟩
  · rw [hevents, hpending]
    exact h.queued
  · intro id p hp
    cases hworker with
    | inl hsame => exact h.working id p (hsame ▸ hp)
    | inr hnone => rcases hp with hp | hp <;> rw [hp] at hnone <;> simp [holding] at hnone
  · intro id hid
    rw [hevents] at hid
    refine h.staged id (hid.imp_right fun hheld => ?_)
    cases hworker with
    | inl hsame => exact hsame ▸ hheld
    | inr hnone => rw [hnone] at hheld; simp at hheld

/-- The worker goes on with the checkpoint it holds. -/
theorem CoordOk.of_holding {c c' : Coordinator Snap Blob} {l : TxnLedger} (h : CoordOk c l)
    (hevents : c'.events = c.events) (hpending : c'.pending = c.pending)
    (hheld : holding c'.worker = holding c.worker)
    (hworking : ∀ id p, c'.worker = .taken id p ∨ c'.worker = .saved id p → Cleared l id) :
    CoordOk c' l := by
  refine ⟨?_, hworking, ?_⟩
  · rw [hevents, hpending]
    exact h.queued
  · rw [hevents, hheld]
    exact h.staged

/-- A new barrier comes in: nothing is registered for it yet, so no queued checkpoint changes. -/
theorem inv_arriveBarrier {offsets : Blob} {state : Snap} (h : Inv s)
    (hs : s.path.step (.arriveBarrier id offsets state) = some path) :
    Inv { s with path := path } := by
  have hturns := turns_step h.turns hs
  simp only [FailurePath.step] at hs
  split at hs
  · simp at hs
  rename_i hnew
  cases hs
  refine ⟨hturns, ⟨?_, ?_, ?_, h.sink.reading, h.sink.waiting⟩, h.prepares, ⟨?_, h.coord.working,
    h.coord.staged⟩, h.commits⟩
  · show s.ledger.barriers ++ Item.markers (s.path.sinkIn ++ [.marker id]) = s.path.arrived ++ [id]
    rw [Item.markers_append, ← append_assoc, h.sink.order]
    rfl
  · exact nodup_append.mpr ⟨h.sink.nodup, nodup_singleton id, by
      rintro a ha b hb rfl
      exact hnew (mem_singleton.mp hb ▸ ha)⟩
  · intro id' hid'
    obtain ⟨hpc, rest, hin⟩ := h.sink.flushing id' hid'
    exact ⟨hpc, rest ++ [.marker id], by
      show s.path.sinkIn ++ [.marker id] = _
      rw [hin, cons_append]⟩
  · intro id' hid'
    obtain ⟨p, hp, r, hr, hrid, herr⟩ := h.coord.queued id' hid'
    have hne : id' ≠ id := by
      rintro rfl
      exact hnew (h.sink.known (hrid ▸ (h.prepares r hr).1))
    refine ⟨p, ?_, r, hr, hrid, herr⟩
    show ((s.path.coord.onBarrierInjected id offsets).onStateSnapshot id state).pending id' = _
    rw [Coordinator.onStateSnapshot_pending, if_neg hne, Coordinator.onBarrierInjected_pending,
      if_neg hne, hp]

theorem inv_finalize (h : Inv s) (hs : s.path.step .finalize = some path) : Inv { s with path := path } := by
  have hturns := turns_step h.turns hs
  obtain ⟨c, hc, rfl⟩ := Option.map_eq_some_iff.mp hs
  obtain ⟨-, id, rest, hev, hev', -, hcase⟩ := Coordinator.finalizeBegin_some hc
  obtain ⟨rfl, -, -⟩ := h.turns.queued id rest hev
  have hid : id ∈ s.path.coord.events := hev ▸ mem_cons_self
  obtain ⟨q, hq, r, hr, hrid, herr⟩ := h.coord.queued id hid
  -- the worker holds `id`, or nothing
  have hheld : ∀ id', holding c.worker = some id' → id' = id := by
    intro id' hid'
    rcases hcase with ⟨-, -, hw⟩ | ⟨-, -, ⟨-, hw⟩ | ⟨p, -, ⟨e, e', -, hw⟩ | ⟨-, hw⟩⟩⟩ <;>
      rw [hw] at hid' <;> simp_all [holding]
  refine ⟨hturns, h.sink, h.prepares, ⟨?_, ?_, ?_⟩, h.commits⟩
  · intro id' hid'
    have hid' : id' ∈ c.events := hid'
    rw [hev'] at hid'
    cases hid'
  · intro id' p hp
    have hp : c.worker = .taken id' p ∨ c.worker = .saved id' p := hp
    rcases hcase with ⟨-, -, hw⟩ | ⟨-, -, ⟨-, hw⟩ | ⟨p', hp', ⟨e, e', -, hw⟩ | ⟨hnone, hw⟩⟩⟩ <;>
      rw [hw] at hp
    · simp at hp
    · simp at hp
    · simp at hp
    · -- taken, because its prepare was reported without an error
      obtain ⟨rfl, -⟩ : id = id' ∧ p' = p := by simpa using hp
      rw [hq] at hp'
      rw [Option.some.inj hp', hnone] at herr
      exact ⟨r, hr, hrid, herr⟩
  · intro id' hid'
    have hid' : id' ∈ c.events ∨ holding c.worker = some id' := hid'
    rw [hev'] at hid'
    obtain hid' := hid'.resolve_left not_mem_nil
    rw [hheld id' hid']
    exact h.coord.staged id (.inl hid)

/-- The worker moves on without the client. -/
theorem Inv.advance (h : Inv s)
    (hturns : Turns path.coord.events (holding path.coord.worker) path.sink)
    (hsinkIn : path.sinkIn = s.path.sinkIn) (hsink : path.sink = s.path.sink)
    (harrived : path.arrived = s.path.arrived) (hcoord : CoordOk path.coord s.ledger) :
    Inv { s with path := path } := by
  refine ⟨hturns, ?_, h.prepares, hcoord, h.commits⟩
  rw [hsinkIn, hsink, harrived]
  exact h.sink

/-- `Write` returns, outside a flush. -/
theorem Inv.returned {sink : TxnKafkaSink} (h : Inv s)
    (hturns : Turns s.path.coord.events (holding s.path.coord.worker) { sink with pc := .returned })
    (hidle : ∀ id, s.ledger.flushing ≠ some id) :
    Inv { s with path := { s.path with sink := { sink with pc := .returned } } } :=
  ⟨hturns, ⟨h.sink.order, h.sink.nodup, fun id hid => absurd hid (hidle id),
    fun hread => absurd hread (by simp), fun _ hwait => absurd hwait (by simp)⟩, h.prepares,
    h.coord, h.commits⟩

/-- A step of `FailurePath` that does not touch the client. -/
theorem inv_path {e : FailurePath.Event Snap Blob} (h : Inv s) (hs : s.path.step e = some path)
    (he : (∀ err, e ≠ .write err) ∧ (∀ err, e ≠ .abort err) ∧ ∀ out, e ≠ .commit out) :
    Inv { s with path := path } := by
  have hturns := turns_step h.turns hs
  have hs' := hs
  revert hs hturns
  fun_cases FailurePath.step s.path e <;> intro hs hturns <;> try cases hs
  case case1.refl =>
    refine ⟨hturns, ⟨?_, h.sink.nodup, ?_, h.sink.reading, h.sink.waiting⟩, h.prepares, h.coord,
      h.commits⟩
    · show s.ledger.barriers ++ Item.markers (s.path.sinkIn ++ [.data ()]) = s.path.arrived
      rw [Item.markers_append, ← h.sink.order]
      simp
    · intro id hid
      obtain ⟨hpc, rest, hin⟩ := h.sink.flushing id hid
      exact ⟨hpc, rest ++ [.data ()], by
        show s.path.sinkIn ++ [.data ()] = _
        rw [hin, cons_append]⟩
  case case3.refl => exact inv_arriveBarrier h hs'
  case case4.refl err _ _ _ _ | case5.refl err _ _ _ _ => exact absurd rfl (he.1 err)
  case case8.refl id hpc hclosed =>
    -- the next transaction is open, and nothing of it has failed
    obtain ⟨hinflight, hstaged, hnone⟩ := (h.sink.waiting id hpc).decided hclosed
    have hfailed := (h.sink.waiting id hpc).failed
    refine ⟨hturns, ⟨h.sink.order, h.sink.nodup, ?_, fun _ => ⟨?_, ?_, ?_⟩, ?_⟩, h.prepares,
      h.coord, h.commits⟩
    · intro id' hid'
      exact absurd (h.sink.flushing id' hid').1 (by rw [hpc]; simp)
    · rw [hinflight, hstaged]
      simp
    · exact fun n hn => (hfailed n hn).le
    · exact iff_of_true hnone fun hmem => Nat.lt_irrefl _ (hfailed _ hmem)
    · exact fun id' hid' => absurd hid' (by simp)
  case case10.refl hpc _ =>
    refine h.returned hturns fun id hid => ?_
    exact absurd (h.sink.flushing id hid).1 (by rw [hpc]; simp)
  case case13.refl hend =>
    refine h.returned hturns fun id hid => ?_
    obtain ⟨-, rest, hin⟩ := h.sink.flushing id hid
    rw [hend.2] at hin
    simp at hin
  case case15 => exact inv_finalize h hs'
  case case16.refl id p hw =>
    refine h.advance hturns rfl rfl rfl (h.coord.of_holding rfl rfl (by rw [hw]; rfl) ?_)
    intro id' p' hp'
    obtain ⟨rfl, -⟩ : id = id' ∧ p = p' := by simpa [advance] using hp'
    exact h.coord.working id p (.inl hw)
  case case17.refl hw _ =>
    refine h.advance hturns rfl rfl rfl (h.coord.of_holding rfl rfl (by rw [hw]; rfl) ?_)
    exact fun _ _ hp => absurd hp (by simp [advance])
  case case19.refl err _ _ _ _ => exact absurd rfl (he.2.1 err)
  case case21.refl | case22.refl | case23.refl => exact absurd rfl (he.2.2 _)
  case case25.refl | case26.refl | case28.refl =>
    exact h.advance hturns rfl rfl rfl (h.coord.of_same rfl rfl (.inr rfl))
  all_goals exact h.advance hturns rfl rfl rfl (h.coord.of_same rfl rfl (.inl rfl))

/-! ## Steps of the sink -/

theorem interval_lt {l : TxnLedger} (h : id ∈ l.barriers) : l.interval id < l.current :=
  idxOf_lt_length_iff.mpr h

/-- While `Write` reads, nothing is queued or undecided, so the open transaction may grow. -/
theorem Inv.coordOk_of_reading (h : Inv s) (hpc : s.path.sink.pc = .reading) {l : TxnLedger}
    (hl : l.prepares = s.ledger.prepares) : CoordOk s.path.coord l := by
  obtain ⟨hev, hheld⟩ := h.turns.of_reading (not_blockedOn_of_reading hpc)
  refine ⟨fun id hid => ?_, ?_, fun id hid => ?_⟩
  · rw [hev] at hid
    cases hid
  · intro id p hp
    rw [Cleared, hl]
    exact h.coord.working id p hp
  · rw [hev, hheld] at hid
    simp at hid

/-- The records of the current interval are not those of a reported prepare. -/
theorem PreparesOk.mono {l l' : TxnLedger} (h : PreparesOk l) (hprepares : l'.prepares = l.prepares)
    (hbarriers : l'.barriers = l.barriers) (hfailures : ∀ n, n ∈ l.failures → n ∈ l'.failures)
    (hnew : ∀ n, n ∈ l'.failures → n ∉ l.failures → n = l.current ∨ n ∈ l.inflight)
    (hinflight : ∀ n, n ∈ l'.inflight → n ∈ l.inflight ∨ n = l.current) : PreparesOk l' := by
  intro r hr
  rw [hprepares] at hr
  obtain ⟨hid, hclean, herr⟩ := h r hr
  have hinterval : l'.interval r.id = l.interval r.id := by
    rw [interval, interval, hbarriers]
  have hne : l.interval r.id ≠ l.current := (interval_lt hid).ne
  rw [hbarriers, hinterval]
  refine ⟨hid, fun hnone => ⟨fun hmem => ?_, fun hmem => ?_⟩, fun hflush hmem => ?_⟩
  · obtain ⟨hfailed, hheld⟩ := hclean hnone
    cases hnew _ hmem hfailed with
    | inl hcurrent => exact hne hcurrent
    | inr hin => exact hheld hin
  · cases hinflight _ hmem with
    | inl hin => exact (hclean hnone).2 hin
    | inr hcurrent => exact hne hcurrent
  · exact herr hflush fun hold => hmem (hfailures _ hold)

/-- One more record in flight and in the transaction, both of the current interval. -/
theorem Latched.produce {sink : TxnKafkaSink} {l : TxnLedger} (h : Latched sink l) :
    Latched sink l.produce := by
  refine ⟨fun n hn => ?_, h.failed, h.latch⟩
  have hheld := h.held
  show n = l.current
  simp only [TxnLedger.produce, mem_append, mem_singleton] at hn hheld
  rcases hn with (hn | hn) | (hn | hn)
  · exact hheld n (.inl hn)
  · exact hn
  · exact hheld n (.inr hn)
  · exact hn

theorem PreparesOk.produce {l : TxnLedger} (h : PreparesOk l) : PreparesOk l.produce := by
  refine h.mono rfl rfl (fun _ hn => hn) (fun _ hn hnot => absurd hn hnot) ?_
  intro n hn
  simpa [TxnLedger.produce] using hn

/-- `Write` takes a data record only while it reads. -/
theorem write_data {p p' : FailurePath Snap Blob} {u : Unit} {rest : List (Item Unit String)}
    (hin : p.sinkIn = .data u :: rest) (hs : p.step (.write err) = some p') :
    p.sink.pc = .reading ∧ p' = { p with sinkIn := rest, sink := p.sink.setProduceErr err } := by
  cases hpc : p.sink.pc with
  | reading =>
    simp only [FailurePath.step, hpc, hin, Option.some.injEq] at hs
    exact ⟨rfl, hs.symm⟩
  | waiting id => simp [FailurePath.step, hpc] at hs
  | returned => simp [FailurePath.step, hpc] at hs

theorem inv_record (h : Inv s) (hs : step s (.record err) = some s') :
    Inv s' := by
  simp only [step] at hs
  split at hs
  swap
  · simp at hs
  rename_i u rest hin
  obtain ⟨path, hpath, rfl⟩ := Option.map_eq_some_iff.mp hs
  have hturns := turns_step h.turns hpath
  obtain ⟨hpc, rfl⟩ := write_data hin hpath
  obtain ⟨hheld, hfailed, -⟩ := h.sink.reading hpc
  have horder : s.ledger.barriers ++ Item.markers rest = s.path.arrived := by
    rw [← h.sink.order, hin, Item.markers_data]
  have hidle : ∀ id, s.ledger.flushing ≠ some id := by
    intro id hid
    obtain ⟨-, rest', hin'⟩ := h.sink.flushing id hid
    rw [hin] at hin'
    simp at hin'
  have hwaiting : ∀ id, s.path.sink.pc ≠ .waiting id := fun id hid =>
    absurd (hpc.symm.trans hid) (by simp)
  cases err with
  | none =>
    refine ⟨hturns, ⟨horder, h.sink.nodup, fun id hid => absurd hid (hidle id), fun _ => ?_,
      fun id hid => absurd hid (hwaiting id)⟩, h.prepares.produce, h.coordOk_of_reading hpc rfl,
      h.commits⟩
    obtain ⟨hheld, hfailed, hlatch⟩ := (h.sink.reading hpc).produce
    refine ⟨hheld, hfailed, ?_⟩
    show s.path.sink.produceErr.or none = none ↔ _
    rw [Option.or_none]
    exact hlatch
  | some e =>
    refine ⟨hturns, ⟨horder, h.sink.nodup, fun id hid => absurd hid (hidle id), fun _ => ⟨hheld, ?_, ?_⟩,
      fun id hid => absurd hid (hwaiting id)⟩, ?_, h.coordOk_of_reading hpc rfl, h.commits⟩
    · intro n hn
      cases mem_append.mp hn with
      | inl hold => exact hfailed n hold
      | inr hnew => exact (mem_singleton.mp hnew).le
    · refine iff_of_false (by simp [TxnKafkaSink.setProduceErr]) ?_
      exact fun hnot => hnot (mem_append_right _ (mem_singleton_self _))
    · refine h.prepares.mono rfl rfl (fun _ hn => mem_append_left _ hn) ?_ fun _ hn => .inl hn
      intro n hn hnot
      cases mem_append.mp hn with
      | inl hold => exact absurd hold hnot
      | inr hnew => exact .inl (mem_singleton.mp hnew)

theorem inv_marker (h : Inv s) (hs : step s .marker = some s') : Inv s' := by
  simp only [step] at hs
  split at hs
  · rename_i id rest hpc hin hidle
    cases hs
    obtain ⟨hheld, hfailed, hlatch⟩ := (h.sink.reading hpc).produce
    refine ⟨h.turns, ⟨h.sink.order, h.sink.nodup, ?_, fun _ => ⟨hheld, hfailed, hlatch⟩,
      fun id hid => absurd (hpc.symm.trans hid) (by simp)⟩, h.prepares.produce,
      h.coordOk_of_reading hpc rfl, h.commits⟩
    intro id' hid'
    obtain rfl : id = id' := by simpa using hid'
    exact ⟨hpc, rest, hin⟩
  · simp at hs

theorem write_marker {p p' : FailurePath Snap Blob} {rest : List (Item Unit String)}
    (hpc : p.sink.pc = .reading) (hin : p.sinkIn = .marker id :: rest)
    (hs : p.step (.write err) = some p') :
    p' = { p with
      sinkIn := rest
      sink := { p.sink with pc := .waiting id, waiters := id :: p.sink.waiters }
      coord := p.coord.onSinkPrepared id (err.or p.sink.produceErr) } := by
  simp only [FailurePath.step, hpc, hin, Option.some.injEq] at hs
  exact hs.symm

theorem Cleared.mem (h : PreparesOk s.ledger) (hid : Cleared s.ledger id) :
    id ∈ s.ledger.barriers := by
  obtain ⟨r, hr, rfl, -⟩ := hid
  exact (h r hr).1

/-- `Flush` has returned: the interval is closed, and what is reported is what its records, or the
    flush itself, have come to. -/
theorem inv_flush (h : Inv s) (hs : step s (.flush err) = some s') : Inv s' := by
  simp only [step] at hs
  split at hs
  swap
  · simp at hs
  rename_i id hflush
  split at hs
  · simp at hs
  rename_i hguard
  obtain ⟨path, hpath, rfl⟩ := Option.map_eq_some_iff.mp hs
  have hturns := turns_step h.turns hpath
  obtain ⟨hpc, rest, hin⟩ := h.sink.flushing id hflush
  obtain rfl := write_marker hpc hin hpath
  obtain ⟨hheld, hfailed, hlatch⟩ := h.sink.reading hpc
  obtain ⟨hev, hnone⟩ := h.turns.of_reading (not_blockedOn_of_reading hpc)
  have horder : s.ledger.barriers ++ id :: Item.markers rest = s.path.arrived := by
    rw [← h.sink.order, hin, Item.markers_marker]
  have hnew : id ∉ s.ledger.barriers := by
    have hnodup := h.sink.nodup
    rw [← horder, nodup_append'] at hnodup
    exact fun hmem => hnodup.2.2 hmem mem_cons_self
  have hcurrent : (s.ledger.barriers ++ [id]).idxOf id = s.ledger.current := by
    rw [idxOf_append_of_notMem hnew, idxOf_cons_self]
    rfl
  have hold : ∀ {id'}, id' ∈ s.ledger.barriers →
      (s.ledger.barriers ++ [id]).idxOf id' = s.ledger.interval id' := fun hmem =>
    idxOf_append_of_mem hmem
  have hcleared : ∀ {id'}, Cleared s.ledger id' → ∃ r ∈ s.ledger.prepares ++
      [⟨id, err, err.or s.path.sink.produceErr⟩], r.id = id' ∧ r.err = none := by
    rintro id' ⟨r, hr, hrid, herr⟩
    exact ⟨r, mem_append_left _ hr, hrid, herr⟩
  refine ⟨hturns, ⟨?_, h.sink.nodup, fun _ hid => absurd hid (by simp),
    fun hread => absurd hread (by simp), ?_⟩, ?_, ⟨?_, ?_, ?_⟩, ?_⟩
  · show (s.ledger.barriers ++ [id]) ++ Item.markers rest = s.path.arrived
    rw [append_assoc]
    exact horder
  · intro id' hid'
    obtain rfl : id = id' := by simpa using hid'
    refine ⟨⟨_, rfl⟩, fun n hn => ?_, fun _ n hn => ?_, fun hmem => absurd mem_cons_self hmem⟩
    · show n < (s.ledger.barriers ++ [id]).length
      rw [length_append]
      exact Nat.lt_succ_of_le (hfailed n hn)
    · exact (hheld n hn).trans hcurrent.symm
  · intro r hr
    cases mem_append.mp hr with
    | inl hr =>
      obtain ⟨hid, hrest⟩ := h.prepares r hr
      refine ⟨mem_append_left _ hid, ?_⟩
      show (r.err = none → (s.ledger.barriers ++ [id]).idxOf r.id ∉ _ ∧
        (s.ledger.barriers ++ [id]).idxOf r.id ∉ _) ∧ (_ → (s.ledger.barriers ++ [id]).idxOf r.id ∉ _ → _)
      rw [hold hid]
      exact hrest
    | inr hr =>
      obtain rfl := mem_singleton.mp hr
      refine ⟨mem_append_right _ (mem_singleton_self id), ?_⟩
      show (err.or s.path.sink.produceErr = none → (s.ledger.barriers ++ [id]).idxOf id ∉ _ ∧
          (s.ledger.barriers ++ [id]).idxOf id ∉ s.ledger.inflight) ∧
        (err = none → (s.ledger.barriers ++ [id]).idxOf id ∉ _ → err.or s.path.sink.produceErr = none)
      rw [hcurrent, Option.or_eq_none_iff]
      refine ⟨fun hor => ⟨hlatch.mp hor.2, fun hmem => hguard ⟨hor.1, ?_⟩⟩,
        fun hflushed hclean => ⟨hflushed, hlatch.mpr hclean⟩⟩
      exact ne_nil_of_mem hmem
  · intro id' hid'
    have hid' : id' ∈ if s.path.coord.halted then s.path.coord.events
      else s.path.coord.events ++ [id] := hid'
    rw [hev] at hid'
    split at hid'
    · cases hid'
    · obtain rfl : id' = id := by simpa using hid'
      refine ⟨_, Function.update_self .., _, mem_append_right _ (mem_singleton_self _), rfl, rfl⟩
  · intro id' p hp
    exact hcleared (h.coord.working id' p hp)
  · intro id' hid' n hn
    have hid' : (id' ∈ if s.path.coord.halted then s.path.coord.events
      else s.path.coord.events ++ [id]) ∨ holding s.path.coord.worker = some id' := hid'
    rw [hev, hnone] at hid'
    obtain hid' := hid'.resolve_right (by simp)
    split at hid'
    · cases hid'
    · obtain rfl : id' = id := by simpa using hid'
      exact (hheld n (mem_append_right _ hn)).trans hcurrent.symm
  · intro c hc
    obtain ⟨hclear, hstaged⟩ := h.commits c hc
    refine ⟨hcleared hclear, fun n hn => ?_⟩
    exact (hstaged n hn).trans (hold (hclear.mem h.prepares)).symm

/-- A callback of a record that the client holds, so of the current interval, or of the one that
    `Write` waits for. -/
theorem inv_callback {i : ℕ} (h : Inv s) (hs : step s (.callback i err) = some s') : Inv s' := by
  simp only [step] at hs
  split at hs
  swap
  · simp at hs
  rename_i n hn
  cases hs
  have hmem : n ∈ s.ledger.inflight := mem_of_getElem? hn
  have hsub : ∀ {m}, m ∈ s.ledger.inflight.eraseIdx i ++ s.ledger.staged →
      m ∈ s.ledger.inflight ++ s.ledger.staged := by
    intro m hm
    cases mem_append.mp hm with
    | inl hm => exact mem_append_left _ (mem_of_mem_eraseIdx hm)
    | inr hm => exact mem_append_right _ hm
  have hfailures : ∀ {m}, m ∈ s.ledger.failures ++ (if err.isSome then [n] else []) →
      m ∈ s.ledger.failures ∨ m = n := by
    intro m hm
    cases mem_append.mp hm with
    | inl hm => exact .inl hm
    | inr hm =>
      split at hm
      · exact .inr (mem_singleton.mp hm)
      · cases hm
  refine ⟨h.turns.mono fun _ hb => hb, ⟨h.sink.order, h.sink.nodup, h.sink.flushing, fun hpc => ?_,
    fun id hpc => ?_⟩, ?_, ⟨h.coord.queued, h.coord.working, h.coord.staged⟩, h.commits⟩
  · obtain ⟨hheld, hfailed, hlatch⟩ := h.sink.reading hpc
    have hcurrent : n = s.ledger.current := hheld n (mem_append_left _ hmem)
    refine ⟨fun m hm => hheld m (hsub hm), fun m hm => ?_, ?_⟩
    · cases hfailures hm with
      | inl hm => exact hfailed m hm
      | inr hm => exact (hm.trans hcurrent).le
    · show s.path.sink.produceErr.or err = none ↔ s.ledger.current ∉ _
      rw [Option.or_eq_none_iff, hlatch]
      cases err with
      | none => simp
      | some e => simp [hcurrent]
  · obtain ⟨hlast, hfailed, hundecided, hdecided⟩ := h.sink.waiting id hpc
    have hid : id ∈ s.ledger.barriers := by
      obtain ⟨pre, hpre⟩ := hlast
      rw [hpre]
      exact mem_append_right _ (mem_singleton_self id)
    refine ⟨hlast, fun m hm => ?_, fun hw m hm => hundecided hw m (hsub hm), fun hw => ?_⟩
    · -- nothing is in flight once `id` is decided
      cases hfailures hm with
      | inl hm => exact hfailed m hm
      | inr hm =>
        by_cases hw : id ∈ s.path.sink.waiters
        · rw [hm, hundecided hw n (mem_append_left _ hmem)]
          exact interval_lt hid
        · rw [(hdecided hw).1] at hmem
          cases hmem
    · rw [(hdecided hw).1] at hmem
      cases hmem
  · refine h.prepares.mono rfl rfl (fun _ hm => mem_append_left _ hm) ?_ ?_
    · intro m hm hnot
      exact .inr ((hfailures hm).resolve_left hnot ▸ hmem)
    · exact fun m hm => .inl (mem_of_mem_eraseIdx hm)

/-! ## Steps of the worker on the client -/

section Decide

variable {sinkIn : List (Item Unit String)} {sink : TxnKafkaSink} {arrived : List String}
  {l : TxnLedger} (h : SinkOk sinkIn sink arrived l)

include h

/-- Records are taken out of the open transaction. -/
theorem SinkOk.unstage {staged : List ℕ} (hstaged : staged = [] ∨ staged = l.staged)
    (commits : List (String × List ℕ)) :
    SinkOk sinkIn sink arrived { l with staged := staged, commits := commits } := by
  have hsub : ∀ {n}, n ∈ l.inflight ++ staged → n ∈ l.inflight ++ l.staged := by
    intro n hn
    rcases hstaged with rfl | rfl
    · exact mem_append_left _ (by simpa using hn)
    · exact hn
  refine ⟨h.order, h.nodup, h.flushing, fun hpc => ?_, fun id hpc => ?_⟩
  · obtain ⟨hheld, hfailed, hlatch⟩ := h.reading hpc
    exact ⟨fun n hn => hheld n (hsub hn), hfailed, hlatch⟩
  · obtain ⟨hlast, hfailed, hundecided, hdecided⟩ := h.waiting id hpc
    refine ⟨hlast, hfailed, fun hw n hn => hundecided hw n (hsub hn), fun hw => ?_⟩
    obtain ⟨hinflight, hnone, herr⟩ := hdecided hw
    rw [hnone, or_self] at hstaged
    exact ⟨hinflight, hstaged, herr⟩

/-- The next transaction is open, and `Write` may go on. -/
theorem SinkOk.nextTxn (hblocked : BlockedOn sink id)
    (hinflight : sink.pc = .waiting id → l.inflight = []) (commits : List (String × List ℕ)) :
    SinkOk sinkIn (sink.nextTxn id) arrived { l with staged := [], commits := commits } := by
  refine ⟨h.order, h.nodup, h.flushing, fun hpc => ?_, fun id' hpc => ?_⟩
  · have hpc : sink.pc = .reading := hpc
    exact absurd hblocked (not_blockedOn_of_reading hpc id)
  · have hpc : sink.pc = .waiting id' := hpc
    obtain rfl : id' = id := by
      rcases hblocked with hret | ⟨hwait, -⟩
      · rw [hpc] at hret
        simp at hret
      · rw [hpc] at hwait
        exact WritePc.waiting.inj hwait
    obtain ⟨hlast, hfailed, -, -⟩ := h.waiting id' hpc
    refine ⟨hlast, hfailed, fun hw => ?_, fun _ => ⟨hinflight hpc, rfl, rfl⟩⟩
    simp [TxnKafkaSink.nextTxn, TxnKafkaSink.signal] at hw

end Decide

/-- What has been reported without an error has nothing in flight. -/
theorem Inv.inflight_of_cleared (h : Inv s) (hid : Cleared s.ledger id)
    (hblocked : BlockedOn s.path.sink id) (hpc : s.path.sink.pc = .waiting id) :
    s.ledger.inflight = [] := by
  have hw : id ∈ s.path.sink.waiters := by
    rcases hblocked with hret | ⟨-, hw⟩
    · rw [hpc] at hret
      simp at hret
    · exact hw
  obtain ⟨r, hr, rfl, herr⟩ := hid
  refine eq_nil_iff_forall_not_mem.mpr fun n hn => ?_
  have heq := (h.sink.waiting r.id hpc).undecided hw n (mem_append_left _ hn)
  exact ((h.prepares r hr).2.1 herr).2 (heq ▸ hn)

theorem inv_abort {out : AbortOutcome} (h : Inv s) (hs : step s (.abort out) = some s') : Inv s' := by
  simp only [step] at hs
  split at hs
  · simp at hs
  rename_i hguard
  obtain ⟨path, hpath, rfl⟩ := Option.map_eq_some_iff.mp hs
  have hturns := turns_step h.turns hpath
  simp only [FailurePath.step] at hpath
  split at hpath
  swap
  · simp at hpath
  rename_i id e hw
  cases hpath
  obtain ⟨hev, hblocked⟩ := h.turns.held id (by rw [hw]; rfl)
  have hcoord : CoordOk (s.path.advance (.reporting id e) [.aborted id]).coord s.ledger :=
    h.coord.of_same rfl rfl (.inr rfl)
  have hstaged : (if out.ends then [] else s.ledger.staged) = [] ∨
      (if out.ends then [] else s.ledger.staged) = s.ledger.staged := by
    cases out.ends
    · exact .inr rfl
    · exact .inl rfl
  have hsub : ∀ n ∈ (if out.ends then [] else s.ledger.staged), n ∈ s.ledger.staged := by
    intro n hn
    rcases hstaged with hnil | hsame
    · rw [hnil] at hn
      cases hn
    · rwa [hsame] at hn
  refine ⟨hturns, ?_, h.prepares, ⟨hcoord.queued, hcoord.working,
    fun id' hid' n hn => hcoord.staged id' hid' n (hsub n hn)⟩, h.commits⟩
  cases out with
  | ok =>
    -- all callbacks have run, so nothing is left to set the latch again
    refine h.sink.nextTxn hblocked (fun _ => ?_) _
    by_contra hne
    exact hguard ⟨rfl, hne⟩
  | bufferedFailed err => exact h.sink.unstage (.inr rfl) _
  | endFailed err => exact h.sink.unstage (.inr rfl) _
  | beginFailed err => exact h.sink.unstage (.inl rfl) _

theorem inv_commit {out : CommitOutcome} (h : Inv s) (hs : step s (.commit out) = some s') :
    Inv s' := by
  simp only [step] at hs
  split at hs
  swap
  · simp at hs
  rename_i id p hw
  obtain ⟨path, hpath, rfl⟩ := Option.map_eq_some_iff.mp hs
  have hturns := turns_step h.turns hpath
  simp only [FailurePath.step, hw] at hpath
  obtain ⟨hev, hblocked⟩ := h.turns.held id (by rw [hw]; rfl)
  have hcleared := h.coord.working id p (.inr hw)
  have hcommits : CommitsOk { s.ledger with
      staged := if out.ends then [] else s.ledger.staged
      commits := s.ledger.commits ++ [(id, s.ledger.staged)] } := by
    intro c hc
    cases mem_append.mp hc with
    | inl hc => exact h.commits c hc
    | inr hc =>
      rw [mem_singleton.mp hc]
      exact ⟨hcleared, h.coord.staged id (.inr (by rw [hw]; rfl))⟩
  -- the checkpoint is decided, and nothing else is queued
  have hcoord : ∀ {c : Coordinator Snap Blob}, c.events = s.path.coord.events →
      c.pending = s.path.coord.pending → holding c.worker = none → CoordOk c { s.ledger with
        staged := if out.ends then [] else s.ledger.staged
        commits := s.ledger.commits ++ [(id, s.ledger.staged)] } := by
    intro c hevents hpending hheld
    obtain ⟨hqueued, hworking, -⟩ := h.coord.of_same hevents hpending (.inr hheld)
    refine ⟨hqueued, hworking, fun id' hid' => ?_⟩
    rw [hevents, hev, hheld] at hid'
    simp at hid'
  cases out with
  | ok =>
    cases hpath
    exact ⟨hturns, h.sink.nextTxn hblocked (h.inflight_of_cleared hcleared hblocked) _, h.prepares,
      hcoord rfl rfl rfl, hcommits⟩
  | endFailed err =>
    cases hpath
    exact ⟨hturns, h.sink.unstage (.inr rfl) _, h.prepares, hcoord rfl rfl rfl, hcommits⟩
  | beginFailed err =>
    cases hpath
    exact ⟨hturns, h.sink.unstage (.inl rfl) _, h.prepares, hcoord rfl rfl rfl, hcommits⟩

/-! ## Runs -/

theorem inv_step {e : Event Snap Blob} (h : Inv s) (hs : step s e = some s') : Inv s' := by
  cases e with
  | path e =>
    simp only [step] at hs
    split at hs
    · simp at hs
    · simp at hs
    · simp at hs
    · rename_i hwrite habort hcommit
      obtain ⟨path, hpath, rfl⟩ := Option.map_eq_some_iff.mp hs
      exact inv_path h hpath ⟨hwrite, habort, hcommit⟩
  | record err => exact inv_record h hs
  | marker => exact inv_marker h hs
  | flush err => exact inv_flush h hs
  | callback i err => exact inv_callback h hs
  | abort out => exact inv_abort h hs
  | commit out => exact inv_commit h hs
  | deferredAbort =>
    simp only [step] at hs
    split at hs
    · cases hs
      refine ⟨h.turns, h.sink.unstage (.inl rfl) _, h.prepares, ⟨h.coord.queued, h.coord.working, ?_⟩,
        h.commits⟩
      exact fun _ _ _ hn => absurd hn not_mem_nil
    · simp at hs

/-- In every interleaving, whatever fails: a transaction whose interval has a failed record is never
    committed, and what is committed under a barrier are records of its interval. A prepare is
    reported without an error if its flush succeeded and no record of its own interval failed. -/
theorem txn_integrity (txnID : String) (es : List (Event Snap Blob))
    (h : Run.exec step (initial txnID) es = some s) :
    (∀ id content, (id, content) ∈ s.ledger.commits →
      s.ledger.interval id ∉ s.ledger.failures ∧ ∀ n ∈ content, n = s.ledger.interval id) ∧
      ∀ r ∈ s.ledger.prepares, r.flushErr = none →
        s.ledger.interval r.id ∉ s.ledger.failures → r.err = none := by
  have hinv : Inv s := Run.exec_invariant (fun _ _ _ hi hs => inv_step hi hs) (inv_initial txnID) h
  constructor
  · intro id content hmem
    obtain ⟨⟨r, hr, rfl, herr⟩, hstaged⟩ := hinv.commits _ hmem
    exact ⟨((hinv.prepares r hr).2.1 herr).1, hstaged⟩
  · exact fun r hr => (hinv.prepares r hr).2.2

/-- The first record does not serialize, and the callback of the second one, behind the next
    barrier, runs last. The first checkpoint is aborted, the second one committed. -/
def oneBadRecord : List (Event ℕ ℕ) :=
  [.path .arriveData, .path (.arriveBarrier "cp-1-1" 10 0), .path .arriveData,
    .path (.arriveBarrier "cp-1-2" 20 0), .record (some "bad value"), .marker, .callback 0 none,
    .flush none, .path .finalize, .abort .ok, .path .resume, .record none, .marker,
    .callback 1 none, .callback 0 none, .flush none, .path .report, .path .finalize,
    .path (.save none), .commit .ok]

theorem txn_integrity_oneBadRecord :
    ∃ s, Run.exec step (initial "txn") oneBadRecord = some s ∧ s.ledger.failures = [0] ∧
      s.ledger.prepares = [⟨"cp-1-1", none, some "serialize: bad value"⟩, ⟨"cp-1-2", none, none⟩] ∧
      s.ledger.commits = [("cp-1-2", [1, 1])] ∧
      s.ledger.interval "cp-1-2" ∉ s.ledger.failures := by
  have hfacts : (Run.exec step (initial "txn") oneBadRecord).map
      (fun s => (s.ledger.failures, s.ledger.prepares, s.ledger.commits)) =
        some ([0], [⟨"cp-1-1", none, some "serialize: bad value"⟩, ⟨"cp-1-2", none, none⟩],
          [("cp-1-2", [1, 1])]) := by decide
  obtain ⟨s, hs, hfacts⟩ := Option.map_eq_some_iff.mp hfacts
  simp only [Prod.mk.injEq] at hfacts
  obtain ⟨hfailures, hprepares, hcommits⟩ := hfacts
  have hmem : ("cp-1-2", [1, 1]) ∈ s.ledger.commits := hcommits ▸ mem_singleton_self _
  exact ⟨s, hs, hfailures, hprepares, hcommits,
    ((txn_integrity "txn" oneBadRecord hs).1 _ _ hmem).1⟩

end TxnRun

end Weibo
