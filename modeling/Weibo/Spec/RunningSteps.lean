import Weibo.Spec.CutInvariant

/-!
# The steps of a running pipeline keep the invariant

One lemma for each step of the injector, the operators, the tap, the sink and
the finalize worker.  A data record only moves the end of a queue; the steps
with an argument are those of a barrier: its id is new when it is injected, the
state delivered for it is the state at its cut, and its commit makes that cut
the visible one.
-/

namespace Weibo

open Function List Option Coordinator Item Broker

namespace Pipeline

variable {Rec Out σ Snap Blob : Type} {P : Pipeline Rec Out σ Snap Blob}
variable {fs : FileStorage Snap Blob} {b : Broker Out} {nonces : List ℕ}
  {barriers : String → Option ℕ} {r r' : Running Rec Out σ Snap Blob} {fs' : FileStorage Snap Blob}
  {b' : Broker Out} {id : String}

/-- Until the sink has returned, the queues lead from cut to cut. -/
theorem RunOk.flowing (h : P.RunOk fs b nonces barriers r) (hopen : ¬ Closed r) :
    ∃ n, P.Flowing b barriers r n :=
  h.flow.resolve_right hopen

/-! ## Injector -/

theorem runOk_forward (h : P.RunOk fs b nonces barriers r) (hs : P.forward r = some r') :
    P.RunOk fs b nonces barriers r' := by
  unfold forward at hs
  split at hs
  · simp at hs
  rename_i hphase
  obtain ⟨a, ha, rfl⟩ := map_eq_some_iff.mp hs
  obtain ⟨n, hn⟩ := h.flowing fun hclosed => hphase hclosed.phase
  -- one more record at the end of the operators' queue
  have hfeeds := walk_snoc_data hn.feeds ⟨ha, rfl⟩
  refine ⟨h.ids.congr rfl rfl (by simp [inFlight]),
    .inl ⟨n, hn.state, hfeeds, hn.drains, hn.marked, hn.waits⟩, ?_, h.running, h.handover,
    h.pointers⟩
  · refine ⟨h.registered.healthy, ?_, h.registered.states, h.registered.snaps⟩
    have hoff := h.registered.offsets
    simpa using hoff

/-- Registering a barrier keeps everything that is known of the others. -/
theorem durable_extends {barriers' : String → Option ℕ} (h : P.Durable fs b nonces barriers)
    (hext : Extends barriers barriers')
    (hnew : ∀ id, (barriers' id).isSome → (barriers id).isSome ∨ ∃ n ∈ nonces, ∃ i k, id = mkID n i k) :
    P.Durable fs b nonces barriers' where
  visible_eq := by rw [lastCommitted_extends hext h.placed]; exact h.visible_eq
  nodup := h.nodup
  placed id hid := by rw [hext id (h.placed id hid)]; exact h.placed id hid
  issued id hid := by
    rcases hnew id hid with hold | hn
    · exact h.issued id hold
    · exact hn
  stored id d hd := ⟨(h.stored id d hd).1, (h.stored id d hd).2.extends hext⟩

theorem registered_injectBarrier {blob : Blob} {n : ℕ}
    (h : P.Registered barriers r) (hfresh : barriers id = none)
    (hplaced : ∀ id' ∈ markers r.sinkIn ++ (markers r.tapIn ++ markers r.opsIn),
      (barriers id').isSome) (hblob : P.restoreOffset blob = n) (k : ℕ) (phase : InjectPhase) :
    P.Registered (update barriers id (some n)) { r with
        checkpointID := k
        phase := phase
        coord := r.coord.onBarrierInjected id blob
        opsIn := r.opsIn ++ [.marker id] } := by
  -- the barriers that are queued already have other ids
  have hne : ∀ id', (barriers id').isSome → id' ≠ id := by
    rintro id' hid' rfl
    rw [hfresh] at hid'
    exact absurd hid' (by decide)
  refine ⟨?_, ?_, ?_, ?_⟩
  · intro id' p hp
    rw [onBarrierInjected_pending] at hp
    split at hp
    · cases hp
      exact ensure_sinkErr h.healthy id
    · exact h.healthy id' p hp
  · intro id' hid'
    simp only [markers_append, markers_marker, markers_nil] at hid'
    rw [← append_assoc, ← append_assoc, mem_append, append_assoc, mem_singleton] at hid'
    rw [onBarrierInjected_pending]
    rcases hid' with hold | rfl
    · have := hne id' (hplaced id' hold)
      rw [if_neg this, update_of_ne this]
      exact h.offsets id' hold
    · rw [if_pos rfl, update_self]
      exact congrArg some hblob
  · intro id' hid'
    have := hne id' (hplaced id' (mem_append_left _ hid'))
    rw [onBarrierInjected_pending, if_neg this, update_of_ne this]
    exact h.states id' hid'
  · intro id' hid'
    have := hne id' (hplaced id' (mem_append_right _ (mem_append_left _ hid')))
    rw [update_of_ne this]
    exact h.snaps id' hid'

theorem runOk_injectBarrier {kind : BarrierKind} (hd : P.Durable fs b nonces barriers)
    (h : P.RunOk fs b nonces barriers r) (hs : P.injectBarrier r kind = some (id, r')) :
    P.Durable fs b nonces (update barriers id (some r.pos)) ∧
      P.RunOk fs b nonces (update barriers id (some r.pos)) r' := by
  unfold injectBarrier at hs
  split at hs
  swap
  · simp at hs
  rename_i hphase
  simp only [some.injEq, Prod.mk.injEq] at hs
  obtain ⟨hid, rfl⟩ := hs
  rw [hid]
  have hfresh : barriers id = none := hid ▸ h.ids.fresh kind
  have hext := extends_update hfresh r.pos
  have hself : update barriers id (some r.pos) id = some r.pos := update_self ..
  obtain ⟨n, hn⟩ := h.flowing fun hclosed => by simp [hclosed.phase] at hphase
  have hqueued : ∀ id' ∈ markers r.sinkIn ++ (markers r.tapIn ++ markers r.opsIn),
      (barriers id').isSome :=
    fun id' hid' => h.ids.placed id' (mem_append_right _ hid')
  refine ⟨durable_extends hd hext ?_, h.ids.snoc hd.placed hid ?_ ?_ ?_ r.pos, ?_,
    registered_injectBarrier h.registered hfresh hqueued (P.restoreOffset_offsets r.start r.pos) _ _,
    h.running, ?_, h.pointers⟩
  · intro id' hid'
    by_cases heq : id' = id
    · exact .inr ⟨r.runNonce, h.ids.nonce, _, kind, heq.trans hid.symm⟩
    · rw [update_of_ne heq] at hid'
      exact .inl hid'
  · rfl
  · rfl
  · simp [inFlight]
  · -- the barrier is placed where the injector stands
    refine .inl ⟨n, hn.state, ?_, Drains.extends hext hn.drains, hn.marked, ?_⟩
    · exact walk_snoc_marker (Feeds.extends hext hn.feeds) hself
    · intro id' hw
      obtain ⟨m, hm, hout⟩ := hn.waits id' hw
      exact ⟨m, hext.eq_some hm, hout⟩
  · -- the sink waits for an older barrier
    refine h.handover.extends hext rfl rfl rfl ?_
    intro id' hw
    have hne : id' ≠ id := by
      rintro rfl
      have := h.ids.placed id' (by simp [inFlight, hw])
      rw [hfresh] at this
      simp at this
    exact (r.coord.onBarrierInjected_pending ..).trans (if_neg hne)

/-! ## Operators and tap -/

section Steps

variable (h : P.RunOk fs b nonces barriers r)

include h

theorem runOk_operate (hs : P.operate r = some r') : P.RunOk fs b nonces barriers r' := by
  unfold operate at hs
  split at hs
  · -- a record: the operators move to the next cut and its output is queued
    rename_i a rest hops
    cases hs
    obtain ⟨n, hn⟩ := h.flowing fun hclosed => by simp [hclosed.opsIn] at hops
    have hfeeds := hn.feeds
    rw [hops] at hfeeds
    obtain ⟨_, ⟨ha, rfl⟩, hrest⟩ := hfeeds
    refine ⟨h.ids.congr rfl rfl (by simp [inFlight, hops]), ?_, ?_, h.running, h.handover, h.pointers⟩
    · refine .inl ⟨n + 1, ?_, hrest, ?_, hn.marked, hn.waits⟩
      · rw [P.stateAt_succ ha, ← hn.state]
      · rw [P.outputs_succ ha, ← hn.state, ← append_assoc]
        exact P.drains_append_data hn.drains _
    · refine ⟨h.registered.healthy, ?_, h.registered.states, ?_⟩
      · simpa [hops] using h.registered.offsets
      · simpa using h.registered.snaps
  · -- a barrier: the state it delivers is the state at its cut
    rename_i id rest hops
    cases hs
    obtain ⟨n, hn⟩ := h.flowing fun hclosed => by simp [hclosed.opsIn] at hops
    have hfeeds := hn.feeds
    rw [hops] at hfeeds
    obtain ⟨hid, hrest⟩ := hfeeds
    refine ⟨h.ids.congr rfl rfl (by simp [inFlight, hops]), .inl ⟨n, hn.state, hrest, ?_, hn.marked, hn.waits⟩,
      ?_, h.running, h.handover, h.pointers⟩
    · rw [← append_assoc]
      exact walk_snoc_marker hn.drains ⟨n, hid, rfl⟩
    · refine ⟨h.registered.healthy, ?_, h.registered.states, ?_⟩
      · simpa [hops] using h.registered.offsets
      · intro id' hid'
        show (update r.barrierSnaps id _ id').map P.restore = _
        by_cases heq : id' = id
        · subst heq
          rw [update_self, map_some, P.restore_snapshot, hid, hn.state]
          rfl
        · rw [update_of_ne heq]
          apply h.registered.snaps id'
          simpa [heq] using hid'
  · simp at hs

theorem runOk_tap (hs : P.tap r = some r') : P.RunOk fs b nonces barriers r' := by
  unfold tap at hs
  split at hs
  · rename_i o rest htap
    cases hs
    obtain ⟨n, hn⟩ := h.flowing fun hclosed => by simp [hclosed.tapIn] at htap
    -- the two queues read as before
    have hdrains := hn.drains
    rw [htap, append_cons] at hdrains
    refine ⟨h.ids.congr rfl rfl (by simp [inFlight, htap]),
      .inl ⟨n, hn.state, hn.feeds, hdrains, hn.marked, hn.waits⟩, ?_, h.running, h.handover,
      h.pointers⟩
    · refine ⟨h.registered.healthy, ?_, ?_, ?_⟩
      · simpa [htap] using h.registered.offsets
      · simpa using h.registered.states
      · simpa [htap] using h.registered.snaps
  · -- a barrier: what the operators delivered for it is registered
    rename_i id rest htap
    cases hs
    have hmem : id ∈ markers r.tapIn := by rw [htap]; exact mem_cons_self
    have hplaced : (barriers id).isSome :=
      h.ids.placed id (mem_append_right _ (mem_append_right _ (mem_append_left _ hmem)))
    have hsnap := h.registered.snaps id hmem
    -- the operators have delivered, so no live state is taken
    set snap := (r.barrierSnaps id).getD (P.snapshot r.opState) with hsnapdef
    have hstate : some (P.restore snap) = (barriers id).map P.stateAt := by
      obtain ⟨n, hn⟩ := isSome_iff_exists.mp hplaced
      rw [hn] at hsnap
      obtain ⟨s, hs, hrs⟩ := map_eq_some_iff.mp hsnap
      rw [hsnapdef, hs, hn, getD_some, hrs]
      rfl
    -- the other queued barriers are different ones
    have hrest : ∀ id' ∈ markers r.sinkIn ++ markers rest, id' ≠ id := by
      have hd := h.ids.distinct
      rw [inFlight, htap] at hd
      obtain ⟨-, htail, hdisj⟩ := nodup_append.mp (nodup_append.mp hd).2.1
      rintro id' hid' rfl
      rcases mem_append.mp hid' with hsink | htap'
      · exact hdisj id' hsink id' mem_cons_self rfl
      · rw [markers_marker, cons_append, nodup_cons] at htail
        exact htail.1 (mem_append_left _ htap')
    obtain ⟨n, hn⟩ := h.flowing fun hclosed => by simp [hclosed.tapIn] at htap
    have hdrains := hn.drains
    rw [htap, append_cons] at hdrains
    refine ⟨h.ids.congr rfl rfl (by simp [inFlight, htap]),
      .inl ⟨n, hn.state, hn.feeds, hdrains, hn.marked, hn.waits⟩, ?_, h.running, ?_, h.pointers⟩
    · refine ⟨?_, ?_, ?_, ?_⟩
      · intro id' p hp
        rw [onStateSnapshot_pending] at hp
        split at hp
        · cases hp
          exact ensure_sinkErr h.registered.healthy id
        · exact h.registered.healthy id' p hp
      · intro id' hid'
        rw [onStateSnapshot_offsets]
        apply h.registered.offsets id'
        simpa [htap] using hid'
      · intro id' hid'
        rw [onStateSnapshot_pending]
        split
        · rename_i heq
          subst heq
          exact hstate
        · rename_i hne
          apply h.registered.states id'
          simpa [hne] using hid'
      · intro id' hid'
        show (update r.barrierSnaps id none id').map P.restore = _
        rw [update_of_ne (hrest id' (mem_append_right _ hid'))]
        apply h.registered.snaps id'
        rw [htap]
        exact mem_cons_of_mem id hid'
    · refine h.handover.extends (fun _ _ => rfl) rfl rfl rfl ?_
      intro id' hw
      have hne : id ≠ id' := h.ids.ne_waiting hw (by simp [hmem])
      exact (r.coord.onStateSnapshot_pending ..).trans (if_neg (Ne.symm hne))
  · simp at hs

/-! ## Sink -/

theorem runOk_write (hs : write b r = some (b', r')) :
    P.RunOk fs b' nonces barriers r' ∧ b'.visible = b.visible ∧ b'.markers = b.markers := by
  unfold write at hs
  split at hs
  swap
  · simp at hs
  rename_i hwait
  split at hs
  · rename_i o rest hsink
    cases hs
    obtain ⟨n, hn⟩ := h.flowing fun hclosed => by simp [hclosed.sinkIn] at hsink
    have hdrains := hn.drains
    rw [hsink] at hdrains
    obtain ⟨_, rfl, hrest⟩ := hdrains
    refine ⟨⟨h.ids.congr rfl rfl (by simp [inFlight, hsink]),
      .inl ⟨n, hn.state, hn.feeds, ?_, ?_, ?_⟩, ?_, h.running, h.handover, h.pointers⟩, rfl, rfl⟩
    · -- the record moves from the queue into the open transaction
      show P.Drains barriers (b.visible ++ (b.produce (.record o)).staged) _ _
      rw [staged_produce_record, ← append_assoc]
      exact hrest
    · rw [← hn.marked]
      simp [produce, TxnEntry.marker?]
    · intro id hid
      simp [hwait] at hid
    · refine ⟨h.registered.healthy, ?_, ?_, h.registered.snaps⟩
      · simpa [hsink] using h.registered.offsets
      · simpa [hsink] using h.registered.states
  · -- a barrier: its marker closes the transaction and the worker is told
    rename_i id rest hsink
    cases hs
    have hmem : id ∈ markers r.sinkIn := by rw [hsink]; exact mem_cons_self
    have hplaced : (barriers id).isSome :=
      h.ids.placed id (mem_append_right _ (mem_append_left _ hmem))
    obtain ⟨n, hn⟩ := h.flowing fun hclosed => by simp [hclosed.sinkIn] at hsink
    have hdrains := hn.drains
    rw [hsink] at hdrains
    obtain ⟨hcut, hrest⟩ := hdrains
    have hh := h.handover
    rw [Handover, hwait] at hh
    obtain ⟨hev, hfree⟩ := hh
    refine ⟨⟨h.ids.congr rfl rfl (by simp [inFlight, hsink, hwait]),
      .inl ⟨n, hn.state, hn.feeds, ?_, ?_, ?_⟩, ?_, h.running, ?_, h.pointers⟩, rfl, rfl⟩
    · show P.Drains barriers (b.visible ++ (b.produce (.marker id)).staged) _ _
      rw [staged_produce_marker]
      exact hrest
    · have hmarked := hn.marked
      rw [hwait] at hmarked
      simp only [produce, filterMap_append, hmarked]
      rfl
    · intro id' hid'
      cases hid'
      show ∃ m, barriers id = some m ∧ b.visible ++ (b.produce (.marker id)).staged = _
      rw [staged_produce_marker]
      exact hcut
    · refine ⟨?_, ?_, ?_, h.registered.snaps⟩
      · intro id' p hp
        rw [onSinkPrepared_pending] at hp
        split at hp
        · cases hp
          rfl
        · exact h.registered.healthy id' p hp
      · intro id' hid'
        rw [(onSinkPrepared_registered ..).1]
        apply h.registered.offsets id'
        rw [hsink]
        exact mem_cons_of_mem id hid'
      · intro id' hid'
        rw [(onSinkPrepared_registered ..).2]
        apply h.registered.states id'
        rw [hsink]
        exact mem_cons_of_mem id hid'
    · -- all parts were registered on the way, so the worker will find them
      refine .inl ⟨?_, hfree, _, (r.coord.onSinkPrepared_pending ..).trans (if_pos rfl), ?_⟩
      · simp [onSinkPrepared, h.running, hev]
      · refine ⟨hplaced, ?_, ?_⟩
        · show (r.coord.ensure id).offsets.map P.restoreOffset = _
          rw [ensure_offsets]
          exact h.registered.offsets id (mem_append_left _ hmem)
        · show (r.coord.ensure id).state.map P.restore = _
          rw [ensure_state]
          exact h.registered.states id hmem
  · simp at hs

theorem runOk_close (hs : close b r = some (b', r')) :
    P.RunOk fs b' nonces barriers r' ∧ b'.visible = b.visible ∧ b'.markers = b.markers := by
  unfold close at hs
  split at hs
  · rename_i hempty
    obtain ⟨-, hops, htap, hsink, hwait⟩ := hempty
    cases hs
    have hclosed : Closed { r with phase := .done } :=
      ⟨rfl, isEmpty_iff.mp hops, isEmpty_iff.mp htap, isEmpty_iff.mp hsink, hwait⟩
    have hreg := h.registered
    exact ⟨⟨h.ids.congr rfl rfl rfl, .inr hclosed,
      ⟨hreg.healthy, hreg.offsets, hreg.states, hreg.snaps⟩, h.running, h.handover, h.pointers⟩,
      rfl, rfl⟩
  · simp at hs

/-! ## Finalize worker -/

/-- The worker only ever takes the checkpoint the sink waits for, and finds all its parts
    registered. -/
theorem runOk_finalizeBegin {c : Coordinator Snap Blob} (hs : r.coord.finalizeBegin = some c) :
    P.RunOk fs b nonces barriers { r with coord := c } := by
  unfold finalizeBegin at hs
  split at hs
  swap
  · simp at hs
  rename_i id rest hidle hev
  obtain ⟨hwait, rfl, p, hp, hdesc⟩ := h.handover.of_queued hev
  rw [if_neg (by rw [h.running]; decide)] at hs
  simp only [hp, h.registered.healthy _ p hp] at hs
  cases hs
  have hne : ∀ id' ∈ markers r.sinkIn ++ (markers r.tapIn ++ markers r.opsIn),
      id' ≠ id := fun id' hid' => h.ids.ne_waiting hwait hid'
  have hsettled : Settled fs b.markers := by
    have := h.pointers
    rwa [hidle] at this
  refine ⟨h.ids.congr rfl rfl rfl, flow_withCoord _ h.flow, ⟨?_, ?_, ?_, h.registered.snaps⟩,
    h.running, ?_, hsettled⟩
  · intro id' p' hp'
    have hp' : update r.coord.pending id none id' = some p' := hp'
    rw [update_apply] at hp'
    split at hp'
    · simp at hp'
    · exact h.registered.healthy id' p' hp'
  · intro id' hid'
    show ((update r.coord.pending id none id').bind _).map _ = _
    rw [update_of_ne (hne id' hid')]
    exact h.registered.offsets id' hid'
  · intro id' hid'
    show ((update r.coord.pending id none id').bind _).map _ = _
    rw [update_of_ne (hne id' (mem_append_left _ hid'))]
    exact h.registered.states id' hid'
  · simp only [Handover, hwait]
    exact .inr ⟨trivial, p, hdesc, .inl rfl⟩

end Steps

/-- Saving a checkpoint as prepared leaves the pointers settled: it becomes the newest one and its
    transaction has not committed. -/
theorem settled_save {markers : List String} {d : CheckpointData Snap Blob}
    (h : Settled fs markers) (hstatus : d.status = .prepared) (hnew : d.id ∉ markers) :
    Settled (fs.save d) markers := by
  have hload := fs.load_save_prepared d hstatus
  have hsave := fs.save_prepared d hstatus
  refine ⟨?_, ?_, ?_, ?_⟩
  · rw [hsave]
    exact h.completed_eq
  · rw [hsave]
    intro id hid
    have hne : id ≠ d.id := by
      rintro rfl
      exact hnew (mem_of_getLast? (h.completed_eq.symm.trans hid))
    show (update fs.checkpoints d.id (some d) id).isSome
    rw [update_of_ne hne]
    exact h.present id hid
  · intro hnone
    rw [hload] at hnone
    simp at hnone
  · intro d' hd'
    rw [hload] at hd'
    cases hd'
    exact .inr ⟨hstatus, hnew⟩

variable (hd : P.Durable fs b nonces barriers)

include hd

/-- Promoting the checkpoint of the last committed transaction settles the pointers. -/
theorem settled_updateStatus (h : Unsettled fs b.markers id)
    (hs : fs.updateStatus id .completed = some fs') :
    P.Durable fs' b nonces barriers ∧ Settled fs' b.markers := by
  obtain ⟨d, hstored, -⟩ := h.stored
  obtain ⟨rfl, hdesc⟩ := hd.stored id d hstored
  rw [FileStorage.updateStatus_completed fs d.id d hstored rfl] at hs
  cases hs
  refine ⟨⟨hd.visible_eq, hd.nodup, hd.placed, hd.issued, ?_⟩, ⟨h.last.symm, ?_, ?_, ?_⟩⟩
  · intro id' d' hd'
    simp only [update_apply] at hd'
    split at hd'
    · rename_i heq
      cases hd'
      exact ⟨heq.symm, heq ▸ hdesc⟩
    · exact hd.stored id' d' hd'
  · intro id' hid'
    cases hid'
    simp
  · simp [FileStorage.load, FileStorage.loadSpecific]
  · intro d' hd'
    simp only [FileStorage.load, FileStorage.loadSpecific, bind_some, update_self,
      some.injEq] at hd'
    subst hd'
    exact .inl ⟨by simp [CheckpointData.completed], h.last⟩

theorem runOk_save (h : P.RunOk fs b nonces barriers r) (hs : save fs r = some (fs', r')) :
    P.Durable fs' b nonces barriers ∧ P.RunOk fs' b nonces barriers r' := by
  unfold save at hs
  split at hs
  swap
  · simp at hs
  rename_i id p hwork
  cases hs
  obtain ⟨hwait, hev, hdesc⟩ := h.handover.of_held (.inl hwork)
  have hnew : id ∉ b.markers := h.ids.uncommitted id (by simp [inFlight, hwait])
  have hsettled : Settled fs b.markers := by
    have := h.pointers
    rwa [hwork] at this
  -- only the new file and `latest.json` change
  set d := r.coord.preparedData id p with hdef
  have hsave := fs.save_prepared d rfl
  refine ⟨⟨hd.visible_eq, hd.nodup, hd.placed, hd.issued, ?_⟩, h.ids.congr rfl rfl rfl,
    flow_withCoord _ h.flow, ⟨h.registered.healthy, h.registered.offsets, h.registered.states,
    h.registered.snaps⟩, h.running, ?_, settled_save hsettled rfl hnew, ?_, d, ?_, rfl⟩
  · intro id' d' hd'
    rw [hsave] at hd'
    simp only [update_apply] at hd'
    split at hd'
    · rename_i heq
      cases hd'
      exact ⟨heq.symm, heq ▸ hdesc⟩
    · exact hd.stored id' d' hd'
  · simp only [Handover, hwait]
    exact .inr ⟨hev, p, hdesc, .inr rfl⟩
  · rw [hsave]
    rfl
  · rw [hsave]
    exact update_self ..

/-- The commit makes the staged output visible, which is the output up to the barrier the sink waits
    for. -/
theorem runOk_commitSink
    (h : P.RunOk fs b nonces barriers r) (hs : commitSink b r = some (b', r')) :
    P.Durable fs b' nonces barriers ∧ P.RunOk fs b' nonces barriers r' := by
  unfold commitSink at hs
  split at hs
  swap
  · simp at hs
  rename_i id p hwork
  cases hs
  obtain ⟨hwait, hev, hdesc⟩ := h.handover.of_held (.inr hwork)
  obtain ⟨n, hn⟩ := h.flowing fun hclosed => by simp [hclosed.waiting] at hwait
  obtain ⟨m, hm, hout⟩ := hn.waits id hwait
  -- the transaction holds this checkpoint's marker and no other
  have hmark : b.commit.markers = b.markers ++ [id] := by
    rw [markers_commit, hn.marked, hwait]
    rfl
  have hlast : b.commit.lastCommitted barriers = m := by
    rw [lastCommitted, hmark, getLast?_concat, bind_some, hm]
    rfl
  have hnew : id ∉ b.markers := h.ids.uncommitted id (by simp [inFlight, hwait])
  have hpoint := h.pointers
  rw [hwork] at hpoint
  obtain ⟨-, hlatest, hstored⟩ := hpoint
  rw [if_pos hwait]
  -- the barrier leaves the ones on their way
  have hqueued : inFlight r = id :: inFlight { r with waiting := none } := by
    simp [inFlight, hwait]
  have hdistinct := h.ids.distinct
  rw [hqueued, nodup_cons] at hdistinct
  refine ⟨⟨?_, ?_, ?_, hd.issued, hd.stored⟩,
    ⟨⟨h.ids.nonce, h.ids.counted, hdistinct.2, ?_, ?_⟩, .inl ⟨n, hn.state, hn.feeds, ?_, rfl, ?_⟩,
      ⟨h.registered.healthy, h.registered.offsets, h.registered.states, h.registered.snaps⟩,
      h.running, ⟨hev, trivial⟩, ⟨hlatest, hstored, ?_⟩⟩⟩
  · rw [visible_commit, hlast]
    exact hout
  · rw [hmark, nodup_append]
    refine ⟨hd.nodup, nodup_singleton id, ?_⟩
    intro id' hid' id'' hid'' heq
    rw [mem_singleton.mp hid''] at heq
    exact hnew (heq ▸ hid')
  · intro id' hid'
    rw [hmark, mem_append, mem_singleton] at hid'
    rcases hid' with hold | rfl
    · exact hd.placed id' hold
    · exact hdesc.placed
  · intro id' hid' hmem
    rw [hmark, mem_append, mem_singleton] at hmem
    rcases hmem with hold | rfl
    · exact h.ids.uncommitted id' (hqueued ▸ mem_cons_of_mem id hid') hold
    · exact hdistinct.1 hid'
  · intro id' hid'
    exact h.ids.placed id' (hqueued ▸ mem_cons_of_mem id hid')
  · rw [visible_commit, staged_commit, append_nil]
    exact hn.drains
  · intro id' hid'
    simp at hid'
  · rw [hmark, getLast?_concat]

theorem runOk_complete (h : P.RunOk fs b nonces barriers r) (hs : complete fs r = some (fs', r')) :
    P.Durable fs' b nonces barriers ∧ P.RunOk fs' b nonces barriers r' := by
  unfold complete at hs
  split at hs
  swap
  · simp at hs
  rename_i id p hwork
  obtain ⟨fs₁, hfs, heq⟩ := map_eq_some_iff.mp hs
  cases heq
  have hpoint := h.pointers
  rw [hwork] at hpoint
  obtain ⟨hd', hsettled⟩ := settled_updateStatus hd hpoint hfs
  refine ⟨hd', h.ids.congr rfl rfl rfl, flow_withCoord _ h.flow,
    ⟨h.registered.healthy, h.registered.offsets, h.registered.states, h.registered.snaps⟩,
    h.running, ?_, hsettled⟩
  -- the sink may wait for the next checkpoint by now, but the worker does not hold it
  have hh := h.handover
  unfold Handover at hh ⊢
  cases hwait : r.waiting with
  | none =>
    rw [hwait] at hh
    exact ⟨hh.1, trivial⟩
  | some id' =>
    rw [hwait] at hh
    rcases hh with ⟨hev, -, hp⟩ | ⟨-, p', -, hheld⟩
    · exact .inl ⟨hev, trivial, hp⟩
    · rw [hwork] at hheld
      simp at hheld

end Pipeline

end Weibo
