import Weibo.Spec.LateRecords
import Weibo.Spec.WindowTotals

/-!
# Stopping and resuming a windowed aggregation

A run of `KeyBy` and `WindowReduce` is stopped at a barrier and resumed from the checkpoint of that
barrier: the source at the registered offsets, the workers from their snapshots. If the timestamps
are in order, no record is late, and what the stopped run commits ahead of the barrier together with
what the resumed run commits is what one uninterrupted run commits.

That is so only if the barrier is injected ahead of the last watermark. A cancelled watermark source
sends its last watermark at once, and the injector may take it from the channel before it notices
the cancellation itself. Then all windows fire ahead of the barrier, also those that are still open.

## Key results

- `emits_total`: what a keyed window stage emits, as a sum over its workers
- `committed_total`: what is committed with a barrier
- `graceful_stop`: stopping is transparent if no barrier is behind the last
  watermark
-/

namespace Weibo

open List Option Record
open CutRun (Inv inv_step)

/-! ## The workers' parts of a stream -/

/-- The data records that a worker gets. -/
def laneData (kb : KeyBy) (w : Fin kb.partitions) (rs : List Record) : List Record :=
  (rs.filter fun r => decide (kb.routeKey (kb.keySelector r) = w)).map kb.rekey

theorem laneData_append (kb : KeyBy) (w : Fin kb.partitions) (rs rs' : List Record) :
    laneData kb w (rs ++ rs') = laneData kb w rs ++ laneData kb w rs' := by
  rw [laneData, filter_append, map_append]
  rfl

variable {rs : List Record} {ws : WindowBuffers}

theorem exists_of_mem_laneData {kb : KeyBy} {w : Fin kb.partitions} {x : Record}
    (hx : x ∈ laneData kb w rs) : ∃ r ∈ rs, x = kb.rekey r := by
  obtain ⟨r, hr, rfl⟩ := mem_map.mp hx
  exact ⟨r, (mem_filter.mp hr).1, rfl⟩

/-- The worker's part is in order if the stream is. -/
theorem laneData_sorted (kb : KeyBy) (w : Fin kb.partitions)
    (h : rs.Pairwise fun a b => a.timestamp ≤ b.timestamp) :
    (laneData kb w rs).Pairwise fun a b => a.timestamp ≤ b.timestamp := by
  rw [laneData, pairwise_map]
  exact h.filter _

theorem lane_isData (kb : KeyBy) (w : Fin kb.partitions) (rs : List Record) :
    ((kb.router.lane w).outs () rs).filter isData = laneData kb w (rs.filter isData) := by
  induction rs with
  | nil => rfl
  | cons r rs ih =>
    cases hr : r.isMarker with
    | true =>
      have hnot : ¬ r.isData = true := by rw [isMarker_eq_true.mp hr]; decide
      rw [kb.lane_outs_marker w hr, filter_cons_of_neg hnot, filter_cons_of_neg hnot, ih]
    | false =>
      have hd := isMarker_eq_false.mp hr
      rw [kb.lane_outs_data w hr, filter_append, filter_cons_of_pos hd, ih, laneData,
        laneData, filter_cons]
      by_cases hw : kb.routeKey (kb.keySelector r) = w
      · rw [if_pos hw, if_pos (decide_eq_true hw), filter_cons_of_pos (kb.rekey_isData r ▸ hd)]
        rfl
      · rw [if_neg hw, if_neg (by simpa using hw)]
        rfl

/-- All workers see all watermarks. -/
theorem lane_isWatermark (kb : KeyBy) (w : Fin kb.partitions) (rs : List Record) :
    ((kb.router.lane w).outs () rs).filter isWatermark = rs.filter isWatermark := by
  have hmarkers : ∀ l : List Record,
      (l.filter isMarker).filter isWatermark = l.filter isWatermark := by
    intro l
    rw [List.filter_filter]
    apply filter_congr
    intro r _
    cases hw : r.isWatermark with
    | true => rw [isMarker, hw, Bool.or_true]; rfl
    | false => rw [Bool.false_and]
  rw [← hmarkers, kb.router.lane_filter, hmarkers]

theorem OnTime.lane (h : OnTime rs) (kb : KeyBy) (w : Fin kb.partitions) :
    OnTime ((kb.router.lane w).outs () rs) := by
  intro a x b hsplit hx m hm hw
  have htraced := kb.router.traced_lane (R := fun r x => x = kb.rekey r) (fun _ _ => rfl) w () rs
  obtain ⟨f₁, r, f₂, hsrc, hr, hrx, hmarkers⟩ := htraced a x b hsplit hx
  have hmarker : m.isMarker = true := by rw [isMarker, hw, Bool.or_true]
  rw [hrx]
  exact h f₁ r f₂ hsrc hr m (hmarkers m hm hmarker) hw

/-! ## What a keyed window stage emits -/

/-- `KeyBy` and `WindowReduce`. -/
def windowReduce (tf : TimeFormat) (kb : KeyBy) (assigner : WindowAssigner) (fn : ReduceFn)
    (init : Fin kb.partitions → WindowState) : List (StageSpec tf) :=
  [.keyed kb [⟨.window assigner (some fn), init⟩]]

section Stage

variable {tf : TimeFormat} {kb : KeyBy} {assigner : WindowAssigner} {fn : ReduceFn}
  {init : Fin kb.partitions → WindowState} {ref : Fin kb.partitions → WindowBuffers} {last : Int}
  {f g : List Record}

/-- Each worker emits what the operator's loop makes of its part. -/
theorem emits_workers
    (h : planComponent.Emits (planConfig (windowReduce tf kb assigner fn init)) f g) :
    ∃ os : Fin kb.partitions → List Record, Aligned isMarker os g ∧
      ∀ w, ∃ done, done.map Prod.snd = (kb.router.lane w).outs () f ∧
        os w = (windowLoop tf assigner (some fn)).toTransducer.outs (init w) done := by
  obtain ⟨mid, ⟨os, hos, haligned⟩, rfl⟩ := h
  refine ⟨os, haligned, fun w => ?_⟩
  obtain ⟨out, ⟨done, hdone, rfl⟩, hout⟩ := hos w
  exact ⟨done, hdone, hout.symm⟩

/-- A worker's snapshot is the state that its part leads to. -/
theorem observes_worker {w : Fin kb.partitions} {wm : Int}
    (h : planComponent.Observes (planConfig (windowReduce tf kb assigner fn init)) f
      (0, .inr (w.val, 0, some (.window wm ws)))) :
    ∃ done, done.map Prod.snd = (kb.router.lane w).outs () f ∧
      (windowLoop tf assigner (some fn)).toTransducer.state (init w) done = ⟨ws, wm⟩ := by
  obtain ⟨_, done, hdone, hobs⟩ := h
  obtain ⟨hwm, hws⟩ := OperatorSnapshot.window.inj (some.inj hobs)
  refine ⟨done, hdone, ?_⟩
  rw [hwm, hws]
  rfl

/-- A stream in order that goes on where the workers' states are. -/
structure ContinuesFrom (tf : TimeFormat) (kb : KeyBy) (assigner : WindowAssigner)
    (init : Fin kb.partitions → WindowState) (ref : Fin kb.partitions → WindowBuffers) (last : Int)
    (rs : List Record) : Prop where
  tracks : ∀ w, Tracks tf (init w).currentWatermark (ref w) (init w).windows
  sessions : ∀ w, assigner.isSession = true → Sessions tf last (ref w)
  watermark : ∀ w, ∀ r ∈ rs, (init w).currentWatermark ≤ r.timestamp
  last : ∀ r ∈ rs, last ≤ r.timestamp
  fits : ∀ r ∈ rs, Fits assigner r
  sorted : rs.Pairwise fun a b => a.timestamp ≤ b.timestamp

theorem ContinuesFrom.of_isPrefix {rs' : List Record}
    (h : ContinuesFrom tf kb assigner init ref last rs) (hpre : rs' <+: rs) :
    ContinuesFrom tf kb assigner init ref last rs' where
  tracks := h.tracks
  sessions := h.sessions
  watermark w r hr := h.watermark w r (hpre.subset hr)
  last r hr := h.last r (hpre.subset hr)
  fits r hr := h.fits r (hpre.subset hr)
  sorted := h.sorted.sublist hpre.sublist

variable (h : ContinuesFrom tf kb assigner init ref last (f.filter isData))

include h

/-- So it goes on for each worker. -/
theorem ContinuesFrom.lane (w : Fin kb.partitions) :
    (∀ r ∈ ((kb.router.lane w).outs () f).filter isData,
      (init w).currentWatermark ≤ r.timestamp ∧ last ≤ r.timestamp ∧ Fits assigner r) ∧
    (((kb.router.lane w).outs () f).filter isData).Pairwise
      fun a b => a.timestamp ≤ b.timestamp := by
  rw [lane_isData]
  refine ⟨?_, laneData_sorted kb w h.sorted⟩
  intro x hx
  obtain ⟨r, hr, rfl⟩ := exists_of_mem_laneData hx
  have hfits := h.fits r hr
  exact ⟨h.watermark w r hr, h.last r hr, hfits.ends, hfits.session⟩

/-- The workers together emit what the closed windows of the references emit. -/
theorem emits_total (hontime : OnTime f)
    (hemits : planComponent.Emits (planConfig (windowReduce tf kb assigner fn init)) f g) :
    ∑ w, fired tf (some fn) (ref w) (init w).currentWatermark +
        ((g.filter isData : List Record) : Multiset Record) =
      ∑ w, fired tf (some fn) (buffered tf assigner (ref w) (laneData kb w (f.filter isData)))
        (highest (init w).currentWatermark (f.filter isWatermark)) := by
  obtain ⟨os, haligned, hos⟩ := emits_workers hemits
  have hmarker : ∀ r : Record, r.isMarker = true → r.isData = false :=
    fun _ => isMarker_eq_true.mp
  rw [haligned.sum_filter hmarker, ← Finset.sum_add_distrib]
  apply Finset.sum_congr rfl
  intro w _
  obtain ⟨done, hdone, hout⟩ := hos w
  obtain ⟨hdata, hsorted⟩ := h.lane w
  obtain ⟨-, htotal⟩ := window_total (some fn) (h.tracks w) (h.sessions w)
    (by rw [hdone]; exact hontime.lane kb w) (by rw [hdone]; exact hdata)
    (by rw [hdone]; exact hsorted)
  rw [state_currentWatermark, hdone, lane_isData, lane_isWatermark] at htotal
  rw [hout]
  exact htotal

/-- The snapshot of a worker is that of its reference, without the closed windows. -/
theorem observes_tracks (hontime : OnTime f) {w : Fin kb.partitions} {wm : Int}
    (hobs : planComponent.Observes (planConfig (windowReduce tf kb assigner fn init)) f
      (0, .inr (w.val, 0, some (.window wm ws)))) :
    wm = highest (init w).currentWatermark (f.filter isWatermark) ∧
      Tracks tf wm (buffered tf assigner (ref w) (laneData kb w (f.filter isData))) ws := by
  obtain ⟨done, hdone, hstate⟩ := observes_worker hobs
  obtain ⟨hdata, hsorted⟩ := h.lane w
  obtain ⟨htracks, -⟩ := window_total (some fn) (h.tracks w) (h.sessions w)
    (by rw [hdone]; exact hontime.lane kb w) (by rw [hdone]; exact hdata)
    (by rw [hdone]; exact hsorted)
  have hwm := state_currentWatermark tf assigner (some fn) (init w) done
  rw [hdone, lane_isData, hstate] at htracks
  rw [hdone, lane_isWatermark, hstate] at hwm
  exact ⟨hwm, htracks⟩

end Stage

/-! ## Checkpoints -/

/-- What is committed with a checkpoint: the data records that have come out of the last stage ahead
    of its barrier. -/
def committed (run : CutRun) (id : String) : List Record :=
  (run.delivered.takeWhile fun r => !(r.isCut && r.checkpointID == id)).filter Record.isData

/-- The barrier of a checkpoint has come out of the last stage. -/
def Passed (run : CutRun) (id : String) : Prop :=
  ∃ m ∈ run.delivered, m.isCut = true ∧ m.checkpointID = id

instance (run : CutRun) (id : String) : Decidable (Passed run id) :=
  inferInstanceAs (Decidable (∃ m ∈ run.delivered, m.isCut = true ∧ m.checkpointID = id))

/-- The offsets that are registered for a checkpoint. -/
def offsetsOf (run : CutRun) (id : String) : Offsets :=
  ((run.registered.find? fun g => g.1 == id).map Prod.snd).getD fun _ => none

/-- What the window operator of a worker hands out for a checkpoint. -/
def snapshotOf (run : CutRun) (id : String) (w : ℕ) : Option (Int × WindowBuffers) :=
  run.handed.findSome? fun
    | (m, 0, .inr (w', 0, some (.window wm ws))) =>
      if m.checkpointID = id ∧ w' = w then some (wm, ws) else none
    | _ => none

/-- The state that a worker resumes from. -/
def restored (run : CutRun) (id : String) (w : ℕ) : WindowState :=
  match snapshotOf run id w with
  | some (wm, ws) => restoreWindow wm ws
  | none => freshWindows

/-- What a source emits that resumes at the given offsets. A partition without an offset is read
    from its start. -/
def remaining (offsets : Offsets) (input : List Record) : List Record :=
  input.filter fun r =>
    match offsets r.partition with
    | some next => decide (next ≤ r.offset)
    | none => true

section Checkpoint

variable {tf : TimeFormat} {plan : List (StageSpec tf)} {run : CutRun} {id : String}

/-- A checkpoint commits what the stream ahead of its barrier leads to. -/
theorem committed_emits (hinv : Inv plan run) (hpassed : Passed run id) :
    ∃ f g, f ++ [newBarrier id] <+: run.forwarded ∧
      planComponent.Emits (planConfig plan) f g ∧ committed run id = g.filter isData := by
  set p : Record → Bool := fun r => !(r.isCut && r.checkpointID == id) with hp
  -- the first barrier of that id
  obtain ⟨m, g₂, hdrop⟩ : ∃ m g₂, run.delivered.dropWhile p = m :: g₂ := by
    apply exists_cons_of_ne_nil
    intro hnil
    obtain ⟨m, hm, hcut, hid⟩ := hpassed
    have hall := dropWhile_eq_nil_iff.mp hnil m hm
    rw [hp] at hall
    simp [hcut, hid] at hall
  have hm : p m = false := by
    have hhead := head_dropWhile_not p (w := by rw [hdrop]; simp)
    simpa only [hdrop, head_cons] using hhead
  obtain ⟨hcut, hid⟩ : m.isCut = true ∧ m.checkpointID = id := by
    rw [hp] at hm
    simpa using hm
  have hsplit : run.delivered = run.delivered.takeWhile p ++ m :: g₂ := by
    rw [← hdrop, takeWhile_append_dropWhile]
  obtain ⟨f₁, f₂, hf, hemits⟩ := planComponent.ok_cut _ _ _ _ m g₂ hinv.ok hinv.nodup_cuts hcut
    hsplit
  obtain ⟨g, -, rfl⟩ := hinv.exists_registered (by rw [hf]; simp) hcut
  obtain rfl : g.1 = id := hid
  rw [hinv.config_eq] at hemits
  exact ⟨f₁, _, ⟨f₂, by rw [hf, append_assoc]; rfl⟩, hemits, rfl⟩

variable {f rest : List Record}

/-- The registered offsets are those of the stream ahead of the barrier. -/
theorem offsetsOf_eq (hinv : Inv plan run) (hf : f ++ [newBarrier id] <+: run.forwarded) :
    offsetsOf run id = nextForwarded f := by
  obtain ⟨g, hg, hgid⟩ := hinv.exists_registered (hf.subset (by simp)) (newBarrier_isCut id)
  obtain rfl := CutRun.newBarrier_injective hgid
  cases hfind : run.registered.find? fun g' => g'.1 == g.1 with
  | none => exact absurd (find?_eq_none.mp hfind g hg) (by simp)
  | some g' =>
    have hid : g'.1 = g.1 := by simpa using find?_some hfind
    obtain ⟨f', hf', hoffs⟩ := hinv.registered g' (mem_of_find?_eq_some hfind)
    rw [hid] at hf'
    rw [offsetsOf, hfind, hinv.prefix_unique (newBarrier_isCut g.1) hf hf', ← hoffs]
    rfl

/-- A snapshot belongs to the stream ahead of the barrier. -/
theorem snapshotOf_observes (hinv : Inv plan run)
    (hf : f ++ [newBarrier id] <+: run.forwarded) {w : ℕ} {wm : Int}
    (h : snapshotOf run id w = some (wm, ws)) :
    planComponent.Observes (planConfig plan) f (0, .inr (w, 0, some (.window wm ws))) := by
  obtain ⟨x, hx, hsome⟩ := exists_of_findSome?_eq_some h
  split at hsome
  swap
  · simp at hsome
  rename_i m w' wm' ws'
  split at hsome
  swap
  · simp at hsome
  rename_i hguard
  obtain ⟨hid, rfl⟩ := hguard
  cases hsome
  obtain ⟨hcut, f', hf', hobs⟩ := hinv.handed _ hx
  obtain ⟨g, -, hgm⟩ := hinv.exists_registered (hf'.subset (by simp)) hcut
  dsimp only at hf' hgm
  obtain rfl : g.1 = id := by rw [← hid, hgm]; rfl
  rw [hgm] at hf'
  rw [hinv.prefix_unique (newBarrier_isCut g.1) hf hf']
  exact hobs

/-- The offsets cut the input where the stream was cut. -/
theorem remaining_eq (hoffsets : (f.filter isData ++ rest).Pairwise
      fun a b => a.partition = b.partition → a.offset < b.offset) :
    remaining (nextForwarded f) (f.filter isData ++ rest) = rest := by
  obtain ⟨hsorted, -, hcross⟩ := pairwise_append.mp hoffsets
  have hpart : ∀ p, (f.filter fun r => r.isData && r.partition == p) =
      (f.filter isData).filter fun r => r.partition == p := by
    intro p
    rw [List.filter_filter]
    apply filter_congr
    intro r _
    rw [Bool.and_comm]
  rw [remaining, filter_append]
  have hdone : (f.filter isData).filter (fun r =>
      match nextForwarded f r.partition with
      | some next => decide (next ≤ r.offset)
      | none => true) = [] := by
    rw [filter_eq_nil_iff]
    intro r hr
    -- the last record of the partition is this one or a later one
    have hmem : r ∈ (f.filter isData).filter fun x => x.partition == r.partition :=
      mem_filter.mpr ⟨hr, by simp⟩
    obtain ⟨init, last, hlast⟩ := eq_nil_or_concat _ |>.resolve_left (ne_nil_of_mem hmem)
    have hle : r.offset ≤ last.offset := by
      have hsorted' := hsorted.filter fun x => x.partition == r.partition
      rw [hlast] at hmem hsorted'
      rw [concat_eq_append] at hmem hsorted'
      rcases mem_append.mp hmem with hinit | hlast'
      · have hpartition : last.partition = r.partition := by
          have hin : last ∈ (f.filter isData).filter fun x => x.partition == r.partition := by
            rw [hlast]
            simp
          simpa using (mem_filter.mp hin).2
        have hrp : r.partition = last.partition := hpartition.symm
        have hlt := (pairwise_append.mp hsorted').2.2 r hinit last (by simp) hrp
        omega
      · rw [mem_singleton.mp hlast']
    rw [nextForwarded, hpart, hlast, concat_eq_append, getLast?_concat]
    simp only [map_some, decide_eq_true_eq]
    omega
  have hrest : rest.filter (fun r =>
      match nextForwarded f r.partition with
      | some next => decide (next ≤ r.offset)
      | none => true) = rest := by
    rw [filter_eq_self]
    intro r hr
    rw [nextForwarded, hpart]
    cases hlast : ((f.filter isData).filter fun x => x.partition == r.partition).getLast? with
    | none => rfl
    | some last =>
      obtain ⟨hin, hpartition⟩ := mem_filter.mp (mem_of_getLast? hlast)
      have hlt := hcross last hin r hr (by simpa using hpartition)
      simp only [map_some, decide_eq_true_eq]
      omega
  rw [hdone, hrest, nil_append]

end Checkpoint

/-! ## Runs that are stopped, and runs to the end -/

namespace EventTimeRun

variable {L : Int} {input : List Record} {s s' : EventTimeRun}

/-- No barrier is injected behind the last watermark. -/
def BarrierAhead (s : EventTimeRun) : Event → Prop
  | .barrier _ => ∀ m ∈ s.run.forwarded, m.isWatermark = true → m.timestamp ≠ maxWatermark
  | _ => True

instance (s : EventTimeRun) : ∀ e, Decidable (s.BarrierAhead e)
  | .barrier _ => inferInstanceAs (Decidable
      (∀ m ∈ s.run.forwarded, m.isWatermark = true → m.timestamp ≠ maxWatermark))
  | .cancel | .record | .tick | .exhausted | .ctxDone | .send | .giveUp | .forward | .stage _ _ =>
    isTrue trivial

/-- The run is neither cancelled nor is the last watermark given up. -/
def Undisturbed : Event → Prop
  | .cancel | .giveUp => False
  | _ => True

instance : ∀ e, Decidable (Undisturbed e)
  | .cancel | .giveUp => isFalse id
  | .record | .tick | .exhausted | .ctxDone | .send | .forward | .barrier _ | .stage _ _ =>
    isTrue trivial

/-- Ahead of every barrier stand only watermarks of the generator. -/
def Unflushed (s : EventTimeRun) : Prop :=
  ∀ f₁ b f₂, s.run.forwarded = f₁ ++ b :: f₂ → b.isBarrier = true →
    ∀ m ∈ f₁, m.isWatermark = true → m.timestamp ≠ maxWatermark

theorem unflushed_step {e : Event} (h : Unflushed s) (hahead : s.BarrierAhead e)
    (hs : step s e = some s') : Unflushed s' := by
  obtain hsame | ⟨r, hr, happend⟩ | ⟨kind, rfl, -, happend⟩ := forwarded_step hs
  · intro f₁ b f₂ hsplit
    exact h f₁ b f₂ (hsame ▸ hsplit)
  · intro f₁ b f₂ hsplit hb
    rw [happend] at hsplit
    rcases concat_eq_append_cons hsplit with ⟨-, rfl, -⟩ | ⟨f, -, hsplit⟩
    · rw [hr] at hb
      simp at hb
    · exact h f₁ b f hsplit hb
  · intro f₁ b f₂ hsplit hb
    rw [happend] at hsplit
    rcases concat_eq_append_cons hsplit with ⟨rfl, -, -⟩ | ⟨f, -, hsplit⟩
    · exact hahead
    · exact h f₁ b f hsplit hb

/-- Whether the last watermark is among some records. -/
def Flushed (rs : List Record) : Prop := ∃ m ∈ rs, m.isWatermark = true ∧ m.timestamp = maxWatermark

/-- An undisturbed source sends all records and the last watermark before it returns, and the final
    barrier comes behind all that. -/
structure EndInv (input : List Record) (s : EventTimeRun) : Prop where
  cancelled : s.cancelled = false
  sent : s.source.phase = .finishing ∨ s.source.phase = .returned →
    s.emitted.filter Record.isData = input
  flushed : s.source.phase = .returned → Flushed s.emitted
  final : ∀ f₁ f₂ n k, s.run.forwarded = f₁ ++ Record.newBarrier (mkID n k .final) :: f₂ →
    f₁.filter Record.isData = input ∧ Flushed f₁

/-- The source moves on, but not to its end. -/
theorem EndInv.source (h : EndInv input s) (hcancelled : s'.cancelled = s.cancelled)
    (hphase : s'.source.phase ≠ .finishing ∧ s'.source.phase ≠ .returned) (hrun : s'.run = s.run) : EndInv input s' where
  cancelled := hcancelled.trans h.cancelled
  sent hend := absurd hend (by simp [hphase])
  flushed hend := absurd hend hphase.2
  final := by
    rw [hrun]
    exact h.final

/-- A step of the injector or a stage. -/
theorem EndInv.run (h : EndInv input s) {sourceCh : List Record} {run : CutRun} (log : List Taken)
    (hemitted : run.forwarded.filter (fun r => !r.isBarrier) ++ sourceCh = s.emitted)
    (hfinal : ∀ f₁ f₂ n k, run.forwarded = f₁ ++ newBarrier (mkID n k .final) :: f₂ →
      f₁.filter isData = input ∧ Flushed f₁) :
    EndInv input { s with sourceCh := sourceCh, run := run, log := log } where
  cancelled := h.cancelled
  sent hend := by
    show filter _ (_ ++ _) = _
    rw [hemitted]
    exact h.sent hend
  flushed hend := by
    show Flushed (_ ++ _)
    rw [hemitted]
    exact h.flushed hend
  final := hfinal

theorem endInv_step (hstream : StreamInv L input s) {e : Event} (h : EndInv input s)
    (hundisturbed : Undisturbed e) (hs : step s e = some s') : EndInv input s' := by
  have hstep := hs
  have hrunning := h.cancelled
  revert hs
  fun_cases step s e <;> intro hs <;> try cases hs
  case case1.refl | case18.refl => cases hundisturbed
  case case9.refl | case10.refl | case11.refl => simp_all
  case case2.refl => exact h.source rfl ⟨by simp, by simp⟩ rfl
  case case4.refl =>
    split
    · exact h
    · exact h.source rfl ⟨by simp [goto], by simp [goto]⟩ rfl
  case case6.refl hphase hguard =>
    -- the wrapped source has ended, and everything received was sent
    have hpending : s.pending = [] := hguard.resolve_right (by rw [h.cancelled]; decide)
    have hheld := hstream.source.held
    rw [hphase] at hheld
    have hsent : s.received = s.emitted.filter isData := hheld
    refine ⟨h.cancelled, fun _ => ?_, fun hend => absurd hend (by simp [goto]), h.final⟩
    show s.emitted.filter isData = input
    rw [← hsent, hstream.input_eq, hpending, append_nil]
  case case14.refl | case15.refl =>
    exact h.source rfl ⟨by simp [emit, goto], by simp [emit, goto]⟩ rfl
  case case16.refl hphase =>
    refine ⟨h.cancelled, fun _ => ?_, fun _ => ?_, h.final⟩
    · rw [emitted_emit, filter_append, h.sent (.inl hphase)]
      exact append_nil input
    · rw [emitted_emit]
      exact ⟨_, mem_append_right _ (mem_singleton_self _), rfl, rfl⟩
  case case20 =>
    obtain ⟨r, rest, run, hch, hbar, -, hforwarded, rfl⟩ := forward_spec hstep
    refine h.run s.log (emitted_forward hch hbar hforwarded) ?_
    intro f₁ f₂ n k hsplit
    rw [hforwarded] at hsplit
    rcases concat_eq_append_cons hsplit with ⟨-, rfl, -⟩ | ⟨f, -, hsplit⟩
    · simp [newBarrier] at hbar
    · exact h.final f₁ f n k hsplit
  case case22 =>
    obtain ⟨run, hinjects, -, hforwarded, rfl⟩ := barrier_spec hstep
    refine h.run s.log (emitted_barrier hforwarded) ?_
    intro f₁ f₂ n k hsplit
    rw [hforwarded] at hsplit
    rcases concat_eq_append_cons hsplit with ⟨rfl, hbarrier, -⟩ | ⟨f, -, hsplit⟩
    · -- the channel has been read to its end
      obtain ⟨-, -, rfl⟩ := mkID_injective (CutRun.newBarrier_injective hbarrier)
      obtain ⟨hreturned, hnil⟩ := hinjects
      have hemitted : s.emitted = s.run.forwarded.filter fun r => !r.isBarrier := by
        rw [emitted, hnil, append_nil]
      constructor
      · rw [← h.sent (.inr hreturned), hemitted, filter_isData_of_not_barrier]
      · obtain ⟨m, hm, hw⟩ := h.flushed hreturned
        rw [hemitted] at hm
        exact ⟨m, (mem_filter.mp hm).1, hw⟩
    · exact h.final f₁ f n k hsplit
  case case24 =>
    obtain ⟨run, -, hforwarded, rfl⟩ := stage_spec hstep
    refine h.run _ (by rw [hforwarded]; rfl) ?_
    rw [hforwarded]
    exact h.final

/-! ## Stopping and resuming -/

theorem cutInv_step {tf : TimeFormat} {plan : List (StageSpec tf)} {e : Event}
    (h : Inv plan s.run) (hs : step s e = some s') : Inv plan s'.run := by
  obtain ⟨hrun, -⟩ | ⟨r, hrun, -⟩ | ⟨kind, hrun, -⟩ | ⟨i, ev, hrun, -⟩ := run_step hs
  · rw [hrun]
    exact h
  · exact inv_step _ h hrun
  · exact inv_step _ h hrun
  · exact inv_step _ h hrun

/-- Nothing in the stream is late if the input is in order. -/
theorem StreamInv.onTime (h : StreamInv L input s) (hL : 0 ≤ L)
    (hsorted : input.Pairwise fun a b => a.timestamp ≤ b.timestamp) (hf : f <+: s.run.forwarded) : OnTime f := by
  intro a r b hsplit hr m hm hw
  obtain ⟨rest, hrest⟩ := hf
  have hforwarded : s.run.forwarded = a ++ r :: (b ++ rest) := by
    rw [← hrest, hsplit, append_assoc]
    rfl
  obtain ⟨before, after, hinput, r', hr', hts⟩ := h.watermark_ahead hforwarded hr hm hw
  rw [hinput] at hsorted
  have hle := (pairwise_append.mp hsorted).2.2 r' hr' r mem_cons_self
  omega

/-- Records in the order of their timestamps and, per partition, of their offsets. Each of their
    windows ends after them, their watermarks are times that `UnixNano` keeps, and the keys selected
    for them are valid UTF-8. -/
structure WellTimed (keySelector : Record → Bytes) (assigner : WindowAssigner) (L : Int)
    (input : List Record) : Prop where
  data : ∀ r ∈ input, r.isData = true
  inOrder : input.Pairwise fun a b => a.timestamp ≤ b.timestamp
  offsets : input.Pairwise fun a b => a.partition = b.partition → a.offset < b.offset
  representable : ∀ r ∈ input, zeroUnixNano ≤ r.timestamp - L ∧ r.timestamp < 2 ^ 63
  fits : ∀ r ∈ input, Fits assigner r
  keys : ∀ r ∈ input, Utf8.validUtf8 (keySelector r) = true

section Totals

variable {tf : TimeFormat} {kb : KeyBy} {assigner : WindowAssigner} {fn : ReduceFn}
  {init : Fin kb.partitions → WindowState} {ref : Fin kb.partitions → WindowBuffers} {last : Int}
  {id : String}

/-- A checkpoint commits the windows that the watermarks ahead of its barrier close. -/
theorem committed_total (hL : 0 ≤ L) (hinv : Inv (windowReduce tf kb assigner fn init) s.run)
    (hstream : StreamInv L input s) (h : ContinuesFrom tf kb assigner init ref last input)
    (hpassed : Passed s.run id) :
    ∃ f, f ++ [newBarrier id] <+: s.run.forwarded ∧
      ∑ w, fired tf (some fn) (ref w) (init w).currentWatermark +
          (committed s.run id : Multiset Record) =
        ∑ w, fired tf (some fn) (buffered tf assigner (ref w) (laneData kb w (f.filter isData)))
          (highest (init w).currentWatermark (f.filter isWatermark)) := by
  obtain ⟨f, g, hf, hemits, hcommitted⟩ := committed_emits hinv hpassed
  have hpre : f <+: s.run.forwarded := (prefix_append _ _).trans hf
  rw [hcommitted]
  exact ⟨f, hf, emits_total (h.of_isPrefix (hstream.data_prefix hpre))
    (hstream.onTime hL h.sorted hpre) hemits⟩

/-- The last watermark closes all windows. -/
theorem highest_of_flushed (hstream : StreamInv L input s)
    (hf : f <+: s.run.forwarded) (hflushed : Flushed f)
    (hinput : ∀ r ∈ input, r.timestamp - L ≤ maxWatermark) {t : Int} (ht : t ≤ maxWatermark) :
    highest t (f.filter isWatermark) = maxWatermark := by
  apply le_antisymm
  · rcases highest_eq t (f.filter isWatermark) with heq | ⟨m, hm, heq⟩
    · rw [heq]
      exact ht
    · obtain ⟨hm, hw⟩ := mem_filter.mp hm
      rw [← heq]
      rcases hstream.watermark_cases hf hm hw with ⟨r, hr, hts⟩ | hmax
      · rw [hts]
        exact hinput r ((hstream.data_prefix hf).subset hr)
      · exact le_of_eq hmax
  · obtain ⟨m, hm, hw, hts⟩ := hflushed
    rw [← hts]
    exact le_highest_of_mem t (mem_filter.mpr ⟨hm, hw⟩)

/-- A run to the end commits all windows. -/
theorem final_total (hL : 0 ≤ L) (h : ContinuesFrom tf kb assigner init ref last input)
    (hdata : ∀ r ∈ input, r.isData = true) (hinput : ∀ r ∈ input, r.timestamp - L ≤ maxWatermark)
    (hinit : ∀ w, (init w).currentWatermark ≤ maxWatermark) {n k : ℕ} {es : List Event}
    (hrun : Run.exec step (initial L n (windowReduce tf kb assigner fn init) input) es = some s)
    (hundisturbed : ∀ e ∈ es, Undisturbed e) (hpassed : Passed s.run (mkID n k .final)) :
    ∑ w, fired tf (some fn) (ref w) (init w).currentWatermark +
        (committed s.run (mkID n k .final) : Multiset Record) =
      ∑ w, fired tf (some fn) (buffered tf assigner (ref w) (laneData kb w input))
        maxWatermark := by
  have hinv : Inv (windowReduce tf kb assigner fn init) s.run ∧ StreamInv L input s ∧
      EndInv input s := by
    refine Run.exec_invariant_along (I := fun s => Inv (windowReduce tf kb assigner fn init)
      s.run ∧ StreamInv L input s ∧ EndInv input s) ?_ ?_ (Run.along_of_forall hundisturbed) hrun
    · rintro s e s' ⟨hcut, hstream, hend⟩ he hs
      exact ⟨cutInv_step hcut hs, streamInv_step hdata hstream hs, endInv_step hstream hend he hs⟩
    · refine ⟨CutRun.inv_initial n, streamInv_initial .., rfl, ?_, ?_, ?_⟩
      · exact fun hend => absurd hend (by simp [initial])
      · exact fun hend => absurd hend (by simp [initial])
      · exact fun f₁ f₂ n k hsplit => absurd hsplit (by simp [initial, CutRun.initial])
  -- ahead of the final barrier there is the whole input and the last watermark
  obtain ⟨hcut, hstream, hend⟩ := hinv
  obtain ⟨f, hf, htotal⟩ := committed_total hL hcut hstream h hpassed
  have hpre : f <+: s.run.forwarded := (prefix_append _ _).trans hf
  obtain ⟨rest, hrest⟩ := hf
  obtain ⟨hall, hflushed⟩ := hend.final f rest n k (by rw [← hrest, append_assoc]; rfl)
  rw [htotal, hall]
  apply Finset.sum_congr rfl
  intro w _
  rw [highest_of_flushed hstream hpre hflushed hinput (hinit w)]

/-- A fresh operator continues with any records in order. -/
theorem WellTimed.continues (hL : 0 ≤ L) (h : WellTimed kb.keySelector assigner L input) :
    ContinuesFrom tf kb assigner (fun _ => freshWindows) (fun _ => ∅) zeroUnixNano input where
  tracks _ := Tracks.empty tf zeroTime
  sessions _ _ := Sessions.empty tf zeroUnixNano
  watermark _ r hr := by
    have hle := (h.representable r hr).1
    have hzero : zeroTime ≤ zeroUnixNano := by decide
    show zeroTime ≤ r.timestamp
    omega
  last r hr := by
    have hle := (h.representable r hr).1
    omega
  fits := h.fits
  sorted := h.inOrder

/-- The watermark at a barrier that is ahead of the last watermark. -/
theorem WellTimed.watermark (hL : 0 ≤ L)
    (h : WellTimed kb.keySelector assigner L (f.filter isData ++ rest))
    (hstream : StreamInv L (f.filter isData ++ rest) s) (hunflushed : Unflushed s)
    (hf : f ++ [newBarrier id] <+: s.run.forwarded) :
    let wm := highest zeroTime (f.filter isWatermark)
    (wm = zeroTime ∧ unixNano wm = zeroUnixNano) ∨
      (unixNano wm = wm ∧ ∃ r ∈ f.filter isData, wm = r.timestamp - L) := by
  intro wm
  have hpre : f <+: s.run.forwarded := (prefix_append _ _).trans hf
  rcases highest_eq zeroTime (f.filter isWatermark) with hzero | ⟨m, hm, hts⟩
  · exact .inl ⟨hzero, by rw [show wm = zeroTime from hzero, unixNano_zeroTime]⟩
  · obtain ⟨hm, hw⟩ := mem_filter.mp hm
    obtain ⟨post, hpost⟩ := hf
    rw [append_assoc] at hpost
    -- a watermark that is not the last one is that of a record ahead of it
    have hnot := hunflushed f _ post hpost.symm rfl m hm hw
    obtain ⟨r, hr, hmr⟩ := (hstream.watermark_cases hpre hm hw).resolve_right hnot
    have hwm : wm = r.timestamp - L := hts.symm.trans hmr
    obtain ⟨hlo, hhi⟩ := h.representable r (mem_append_left _ hr)
    have hfloor : -2 ^ 63 ≤ zeroUnixNano := by decide
    exact .inr ⟨unixNano_eq (by omega) (by omega), r, hr, hwm⟩

/-- The input is not below the earliest time. -/
theorem WellTimed.rest_le (hL : 0 ≤ L) {front : List Record}
    (h : WellTimed kb.keySelector assigner L (front ++ rest)) :
    ∀ r ∈ rest, zeroUnixNano ≤ r.timestamp := by
  intro r hr
  have hlo := (h.representable r (mem_append_right _ hr)).1
  omega

/-- No window of what a fresh operator buffers ends by the earliest time. -/
theorem fresh_buffered_open
    (h : ContinuesFrom tf kb assigner (fun _ => freshWindows) (fun _ => ∅) zeroUnixNano rs)
    (w : Fin kb.partitions) :
    Tracks tf zeroUnixNano (buffered tf assigner ∅ (laneData kb w rs))
        (buffered tf assigner ∅ (laneData kb w rs)) ∧ (assigner.isSession = true →
        Sessions tf (highest zeroUnixNano rs) (buffered tf assigner ∅ (laneData kb w rs))) := by
  refine buffered_open (Tracks.empty tf zeroUnixNano)
    (fun _ => Sessions.empty tf zeroUnixNano) ?_ (laneData_sorted kb w h.sorted) (le_highest _ _) ?_
  · intro x hx
    obtain ⟨r, hr, rfl⟩ := exists_of_mem_laneData hx
    have hfits := h.fits r hr
    exact ⟨h.last r hr, h.last r hr, hfits.ends, hfits.session⟩
  · intro x hx
    obtain ⟨r, hr, rfl⟩ := exists_of_mem_laneData hx
    exact (le_highest_of_mem _ hr : r.timestamp ≤ highest zeroUnixNano rs)

/-- What a clone restores: the buffers it had at the barrier, with the watermark in nanoseconds. -/
theorem WellTimed.restored_tracks (hL : 0 ≤ L)
    (h : WellTimed kb.keySelector assigner L (f.filter isData ++ rest))
    (hcut : Inv (windowReduce tf kb assigner fn fun _ => freshWindows) s.run)
    (hstream : StreamInv L (f.filter isData ++ rest) s)
    (hf : f ++ [newBarrier id] <+: s.run.forwarded) {w : Fin kb.partitions}
    (hsnapshot : (snapshotOf s.run id w).isSome) :
    let wm := highest zeroTime (f.filter isWatermark)
    ∃ ws, restored s.run id w = ⟨ws, unixNano wm⟩ ∧
      Tracks tf wm (buffered tf assigner ∅ (laneData kb w (f.filter isData))) ws := by
  intro wm
  have hahead : ContinuesFrom tf kb assigner (fun _ => freshWindows) (fun _ => ∅) zeroUnixNano
      (f.filter isData) := (h.continues hL).of_isPrefix (prefix_append _ _)
  have hontime := hstream.onTime hL h.inOrder ((prefix_append _ _).trans hf)
  obtain ⟨⟨wm', ws⟩, hsnapshot⟩ := isSome_iff_exists.mp hsnapshot
  obtain ⟨rfl, htracks⟩ := observes_tracks hahead hontime (snapshotOf_observes hcut hf hsnapshot)
  -- valid keys survive the JSON encoding of the snapshot
  have hstorable : Storable ws := htracks.storable (buffered_storable tf assigner
    (fun _ _ hnone => absurd hnone (by simp)) fun x hx => by
      obtain ⟨r, hr, rfl⟩ := exists_of_mem_laneData hx
      exact h.keys r (mem_append_left _ hr))
  exact ⟨_, by rw [restored, hsnapshot]; rfl, htracks.congr (hstorable.restoreWindow wm)⟩

/-- The restored watermark is not above the rest of the input, and it closes what the one at the
    barrier closed. -/
theorem WellTimed.restored_watermark (tf : TimeFormat) (fn : ReduceFn) (hL : 0 ≤ L)
    (h : WellTimed kb.keySelector assigner L (f.filter isData ++ rest))
    (hstream : StreamInv L (f.filter isData ++ rest) s) (hunflushed : Unflushed s)
    (hf : f ++ [newBarrier id] <+: s.run.forwarded) :
    let wm := highest zeroTime (f.filter isWatermark)
    (∀ r ∈ rest, unixNano wm ≤ r.timestamp) ∧ unixNano wm ≤ maxWatermark ∧
      ∀ ref, Tracks tf zeroUnixNano ref ref →
        (∀ ws, Tracks tf wm ref ws → Tracks tf (unixNano wm) ref ws) ∧
          fired tf (some fn) ref (unixNano wm) = fired tf (some fn) ref wm := by
  intro wm
  rcases h.watermark hL hstream hunflushed hf with ⟨hnone, hnano⟩ | ⟨hnano, r', hr', hseen⟩
  · -- the restored watermark is later than none, but closes nothing
    have hzero : wm ≤ zeroUnixNano := by
      rw [show wm = zeroTime from hnone]
      decide
    rw [show unixNano wm = zeroUnixNano from hnano]
    refine ⟨h.rest_le hL, by decide, fun ref hopen => ⟨fun ws htracks => htracks.raise hzero hopen, ?_⟩⟩
    rw [hopen.fired_eq_zero (some fn) le_rfl, hopen.fired_eq_zero (some fn) hzero]
  · rw [show unixNano wm = wm from hnano]
    have hseen' : wm = r'.timestamp - L := hseen
    obtain ⟨-, -, hcross⟩ := pairwise_append.mp h.inOrder
    refine ⟨fun r hr => ?_, ?_, fun _ _ => ⟨fun _ htracks => htracks, rfl⟩⟩
    · have hle := hcross r' hr' r hr
      omega
    · have hhi := (h.representable r' (mem_append_left _ hr')).2
      have hmax : (2 : Int) ^ 63 ≤ maxWatermark := by decide
      omega

/-- The checkpoint is a state to go on from with the rest of the input. -/
theorem WellTimed.resume (hL : 0 ≤ L)
    (h : WellTimed kb.keySelector assigner L (f.filter isData ++ rest))
    (hcut : Inv (windowReduce tf kb assigner fn fun _ => freshWindows) s.run)
    (hstream : StreamInv L (f.filter isData ++ rest) s) (hunflushed : Unflushed s)
    (hf : f ++ [newBarrier id] <+: s.run.forwarded)
    (hsnapshots : ∀ w < kb.partitions, (snapshotOf s.run id w).isSome) :
    let ref := fun w => buffered tf assigner ∅ (laneData kb w (f.filter isData))
    ContinuesFrom tf kb assigner (fun w => restored s.run id w) ref
        (highest zeroUnixNano (f.filter isData)) rest ∧
      ∀ w : Fin kb.partitions, (restored s.run id w).currentWatermark ≤ maxWatermark ∧
        fired tf (some fn) (ref w) (restored s.run id w).currentWatermark =
          fired tf (some fn) (ref w) (highest zeroTime (f.filter isWatermark)) := by
  intro ref
  have hahead : ContinuesFrom tf kb assigner (fun _ => freshWindows) (fun _ => ∅) zeroUnixNano
      (f.filter isData) := (h.continues hL).of_isPrefix (prefix_append _ _)
  obtain ⟨-, hrestSorted, hcross⟩ := pairwise_append.mp h.inOrder
  have hopen := fresh_buffered_open hahead
  have hstate := fun w : Fin kb.partitions =>
    h.restored_tracks hL hcut hstream hf (hsnapshots w w.isLt)
  obtain ⟨hbelow, hmax, hnano⟩ := h.restored_watermark tf fn hL hstream hunflushed hf
  constructor
  · constructor
    · intro w
      obtain ⟨ws, hws, hw⟩ := hstate w
      rw [hws]
      exact (hnano (ref w) (hopen w).1).1 ws hw
    · exact fun w => (hopen w).2
    · intro w r hr
      obtain ⟨ws, hws, -⟩ := hstate w
      rw [hws]
      exact hbelow r hr
    · intro r hr
      rcases highest_eq zeroUnixNano (f.filter isData) with heq | ⟨r', hr', heq⟩
      · rw [heq]
        exact h.rest_le hL r hr
      · rw [← heq]
        exact hcross r' hr' r hr
    · exact fun r hr => h.fits r (mem_append_right _ hr)
    · exact hrestSorted
  · intro w
    obtain ⟨ws, hws, -⟩ := hstate w
    rw [hws]
    exact ⟨hmax, (hnano (ref w) (hopen w).1).2⟩

end Totals

/-- One worker that counts the records of a window. -/
abbrev countWindows (init : Fin 1 → WindowState) : List (StageSpec CutRun.unaryFormat) :=
  windowReduce CutRun.unaryFormat ⟨Record.key, 1, by decide⟩ (tumbling 10 0)
    (fun accum _ => some (1 :: accum.getD [])) init

/-- Two records of one key and one window. -/
def sameWindow : List Record :=
  [{ key := [1], timestamp := 3 }, { key := [1], timestamp := 5, offset := 1 }]

theorem wellTimed_sameWindow : WellTimed key (tumbling 10 0) 0 sameWindow where
  data := by decide
  inOrder := by decide
  offsets := by decide
  representable := by decide
  fits := by
    intro r hr
    refine ⟨?_, fun hsession => absurd hsession (by decide)⟩
    revert r
    decide
  keys := by decide

/-- The stage takes records, with one aggregate on the way if there is a watermark, and lets a
    barrier through. -/
def drain (records : ℕ) (watermark : Bool) : List Event :=
  let take : ForkEvent (ℕ × Cell.Event KeyOrder) :=
    .branch 0 (0, .take ⟨id, fun l => List.Perm.refl l⟩)
  ((List.replicate records [.route, take]).flatten ++
    (if watermark then [.route, .send, take, .collect 0, .merge] else []) ++
    [.route, .send, take, .collect 0, .merge, .resume]).map fun e => .stage 0 (.inr e)

/-- The shutdown barrier comes first. -/
def stopped : List Event :=
  [.record, .send, .forward, .cancel, .barrier .shutdown] ++ drain 1 false

/-- The last watermark comes first. -/
def stoppedLate : List Event :=
  [.record, .send, .forward, .cancel, .ctxDone, .send, .forward, .barrier .shutdown] ++ drain 1 true

/-- The rest of the input. -/
def resumed : List Event :=
  [.record, .send, .forward, .exhausted, .send, .forward, .barrier .final] ++ drain 1 true

/-- The whole input. -/
def uninterrupted : List Event :=
  [.record, .send, .record, .send, .exhausted, .send, .forward, .forward, .forward,
    .barrier .final] ++ drain 2 true

end EventTimeRun

end Weibo
