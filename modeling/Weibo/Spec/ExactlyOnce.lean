import Weibo.ForStd.Run
import Weibo.Spec.RunningSteps

/-!
# Exactly-once output of a coordinated pipeline

However the goroutines interleave and wherever the process crashes, also while
it recovers, the output that read-committed consumers see is what the
uninterrupted pipeline emits on the input ahead of the last committed barrier.
-/

namespace Weibo

open List Option FileStorage

namespace Pipeline

variable {Rec Out σ Snap Blob : Type} {P : Pipeline Rec Out σ Snap Blob}
variable {fs : FileStorage Snap Blob} {b : Broker Out} {nonces : List ℕ}
  {barriers : String → Option ℕ} {d : CheckpointData Snap Blob}

/-! ## Recovery -/

/-- The newest checkpoint is stored under its own id. -/
theorem Durable.load_some (h : P.Durable fs b nonces barriers) (hload : fs.load = some d) : fs.latest = some d.id ∧ fs.checkpoints d.id = some d := by
  obtain ⟨id, hid, hd⟩ := bind_eq_some_iff.mp hload
  obtain ⟨rfl, -⟩ := h.stored id d hd
  exact ⟨hid, hd⟩

theorem Unsettled.load_some (hd : P.Durable fs b nonces barriers) {id : String}
    (h : Unsettled fs b.markers id) (hload : fs.load = some d) :
    d.id = id ∧ d.status = .prepared := by
  obtain ⟨hlatest, hstored⟩ := hd.load_some hload
  obtain rfl := some.inj (hlatest.symm.trans h.latest)
  obtain ⟨d', hd', hstatus⟩ := h.stored
  obtain rfl := some.inj (hstored.symm.trans hd')
  exact ⟨rfl, hstatus⟩

/-- Without a committed transaction a run starts from scratch. -/
theorem resumes_none (h : b.markers.getLast? = none) :
    P.Resumes none (b.lastCommitted barriers) := by
  have hzero : b.lastCommitted barriers = 0 := by
    rw [Broker.lastCommitted, h]
    rfl
  rw [hzero]
  exact ⟨rfl, rfl⟩

/-- The stored checkpoint of the last committed transaction resumes right after its barrier. -/
theorem Durable.resumes (h : P.Durable fs b nonces barriers) {id : String}
    {d' : CheckpointData Snap Blob} (hlast : b.markers.getLast? = some id)
    (hstored : fs.checkpoints id = some d) (hsource : d'.source = d.source)
    (hoperators : d'.operators = d.operators) :
    P.Resumes (some d') (b.lastCommitted barriers) := by
  obtain ⟨-, hdesc⟩ := h.stored id d hstored
  obtain ⟨n, hn⟩ := isSome_iff_exists.mp hdesc.placed
  have hpos : b.lastCommitted barriers = n := by
    rw [Broker.lastCommitted, hlast, bind_some, hn]
    rfl
  rw [hpos]
  constructor
  · rw [bind_some, hsource, hdesc.source_eq, hn]
    rfl
  · rw [bind_some, hoperators, hdesc.operators_eq, hn]
    rfl

/-- What a crash leaves behind: the last committed checkpoint is the one the pointers lead to, or it
    is still to be promoted. -/
theorem PhaseOk.recoverable {ph : Phase Rec Out σ Snap Blob}
    (h : P.PhaseOk fs b nonces barriers ph) :
    Settled fs b.markers ∨ ∃ id, Unsettled fs b.markers id := by
  -- a running process leaves the pointers as its worker has them
  have hworker : ∀ f : Finalize Snap Blob, Pointers fs b.markers f →
      Settled fs b.markers ∨ ∃ id, Unsettled fs b.markers id := by
    intro f hf
    cases f with
    | committed id p => exact .inr ⟨id, hf⟩
    | saved id p => exact .inl hf.1
    | idle | taken | aborting | reporting => exact .inl hf
  cases ph with
  | down => exact h
  | resolving d => exact h.2.2
  | promoting d => exact .inr ⟨d.id, h.2⟩
  | aborting d => exact .inl h
  | discarded => exact .inl h
  | selected cp => exact .inl h.1
  | running r => exact hworker _ h.pointers

theorem phaseOk_load (hd : P.Durable fs b nonces barriers)
    (h : Settled fs b.markers ∨ ∃ id, Unsettled fs b.markers id) :
    (fs.load = none → P.PhaseOk fs b nonces barriers (.selected none)) ∧
    ∀ d, fs.load = some d →
      (d.completed = true → P.PhaseOk fs b nonces barriers (.selected (some d))) ∧
      (d.completed = false → P.PhaseOk fs b nonces barriers (.resolving d)) := by
  rcases h with hs | ⟨id, hu⟩
  · -- settled: the newest checkpoint is the committed one, or was never committed
    refine ⟨fun hnone => ⟨hs, resumes_none (hs.load_none hnone)⟩, fun d hload => ?_⟩
    rcases hs.load_some d hload with ⟨hcomp, hlast⟩ | ⟨hstatus, hnew⟩
    · refine ⟨fun _ => ⟨hs, hd.resumes hlast (hd.load_some hload).2 rfl rfl⟩, fun hnot => ?_⟩
      rw [hcomp] at hnot
      simp at hnot
    · refine ⟨fun hcomp => ?_, fun _ => ⟨hload, hstatus, .inl hs⟩⟩
      rw [completed_of_prepared hstatus] at hcomp
      simp at hcomp
  · -- committed but not promoted: it is prepared, so the broker is asked
    obtain ⟨d₀, hd₀, hstatus₀⟩ := hu.stored
    have hload₀ : fs.load = some d₀ := by
      rw [load, hu.latest]
      exact hd₀
    refine ⟨fun hnone => absurd (hnone.symm.trans hload₀) (by simp), fun d hload => ?_⟩
    obtain ⟨-, hstatus⟩ := hu.load_some hd hload
    refine ⟨fun hcomp => ?_, fun _ => ⟨hload, hstatus, .inr ⟨id, hu⟩⟩⟩
    rw [completed_of_prepared hstatus] at hcomp
    simp at hcomp

theorem phaseOk_probe (hd : P.Durable fs b nonces barriers)
    (h : P.PhaseOk fs b nonces barriers (.resolving d)) :
    (b.wasCommitted d.id = true → P.PhaseOk fs b nonces barriers (.promoting d)) ∧
    (b.wasCommitted d.id = false → P.PhaseOk fs b nonces barriers (.aborting d)) := by
  obtain ⟨hload, hstatus, hs | ⟨id, hu⟩⟩ := h
  · -- the probe finds no marker
    have hnew : d.id ∉ b.markers := by
      rcases hs.load_some d hload with ⟨hcomp, -⟩ | ⟨-, hnew⟩
      · rw [completed_of_prepared hstatus] at hcomp
        simp at hcomp
      · exact hnew
    refine ⟨fun hc => absurd (contains_iff_mem.mp hc) hnew, fun _ => hs⟩
  · obtain ⟨rfl, -⟩ := hu.load_some hd hload
    have hmem : d.id ∈ b.markers := mem_of_getLast? hu.last
    refine ⟨fun _ => ⟨hload, hu⟩, fun hc => ?_⟩
    rw [Broker.wasCommitted, contains_iff_mem.mpr hmem] at hc
    simp at hc

/-- The fallback of recovery reads the last committed checkpoint. -/
theorem phaseOk_fallback (hd : P.Durable fs b nonces barriers) (h : Settled fs b.markers) :
    P.PhaseOk fs b nonces barriers (.selected fs.loadLatestCompleted) := by
  refine ⟨h, ?_⟩
  unfold loadLatestCompleted
  cases hc : fs.latestCompleted with
  | some id =>
    obtain ⟨d, hstored⟩ := isSome_iff_exists.mp (h.present id hc)
    have hlast : b.markers.getLast? = some id := h.completed_eq.symm.trans hc
    show P.Resumes (fs.checkpoints id) _
    rw [hstored]
    exact hd.resumes hlast hstored rfl rfl
  | none =>
    have hlast : b.markers.getLast? = none := h.completed_eq.symm.trans hc
    -- the old-directory fallback finds at most a prepared checkpoint
    dsimp only
    cases hload : fs.load with
    | none => exact resumes_none hlast
    | some d =>
      rcases h.load_some d hload with ⟨-, hlast'⟩ | ⟨hstatus, -⟩
      · exact absurd (hlast.symm.trans hlast') (by simp)
      · dsimp only
        rw [completed_of_prepared hstatus, if_neg (by decide)]
        exact resumes_none hlast

/-- A process started from the selected checkpoint continues at the cut that is visible. -/
theorem runOk_boot (hd : P.Durable fs b nonces barriers) {cp : Option (CheckpointData Snap Blob)}
    (h : P.PhaseOk fs b nonces barriers (.selected cp)) {nonce : ℕ} (hnonce : nonce ∉ nonces) :
    P.RunOk fs b.fence (nonce :: nonces) barriers (P.boot cp nonce) := by
  obtain ⟨hsettled, hresume⟩ := h
  refine ⟨⟨mem_cons_self, ?_, nodup_nil, ?_, ?_⟩, .inl ⟨b.lastCommitted barriers, ?_, ?_, ?_, rfl, ?_⟩,
    ⟨?_, ?_, ?_, ?_⟩, rfl, ⟨rfl, trivial⟩, hsettled⟩
  · -- ids of this run carry a nonce that no earlier id has
    intro i k hplaced
    obtain ⟨n, hn, j, l, heq⟩ := hd.issued _ hplaced
    rw [← (mkID_injective heq).1] at hn
    exact absurd hn hnonce
  · simp [inFlight, boot]
  · simp [inFlight, boot]
  · exact hresume.state
  · exact hresume.offset.symm
  · show b.fence.visible ++ [] = _
    rw [append_nil]
    exact hd.visible_eq
  all_goals simp [boot, Coordinator.new]

/-! ## All steps -/

theorem inv_initial : P.Inv initial := by
  refine ⟨⟨rfl, nodup_nil, ?_, ?_, ?_⟩, .inl ⟨rfl, ?_, fun _ => rfl, ?_⟩⟩
  all_goals simp [initial, Broker.markers, empty, load]

/-- A step of the sink that changes nothing a consumer sees. -/
theorem Durable.of_broker {b' : Broker Out} (h : P.Durable fs b nonces barriers)
    (hv : b'.visible = b.visible) (hm : b'.markers = b.markers) :
    P.Durable fs b' nonces barriers := by
  have hlast : b'.lastCommitted barriers = b.lastCommitted barriers := by
    rw [Broker.lastCommitted, hm, Broker.lastCommitted]
  refine ⟨?_, ?_, ?_, h.issued, h.stored⟩
  · rw [hv, hlast]
    exact h.visible_eq
  · rw [hm]
    exact h.nodup
  · rw [hm]
    exact h.placed

/-- A step of the running process is one of a run that is in order. -/
theorem runOk_of_onRunning {w w' : World Rec Out σ Snap Blob} {α : Type}
    {f : Running Rec Out σ Snap Blob → Option α}
    {g : Running Rec Out σ Snap Blob → α → World Rec Out σ Snap Blob}
    (hp : P.PhaseOk w.storage w.broker w.nonces w.barriers w.phase)
    (hs : onRunning w (fun r => (f r).map (g r)) = some w') :
    ∃ r a, P.RunOk w.storage w.broker w.nonces w.barriers r ∧ f r = some a ∧ w' = g r a := by
  obtain ⟨r, hphase, hf⟩ := onRunning_some hs
  obtain ⟨a, ha, hw⟩ := map_eq_some_iff.mp hf
  rw [hphase] at hp
  exact ⟨r, a, hp, ha, hw.symm⟩

theorem inv_step {w w' : World Rec Out σ Snap Blob} {e : Event} (h : P.Inv w)
    (hs : P.step w e = some w') : P.Inv w' := by
  obtain ⟨hd, hp⟩ := h
  revert hs
  fun_cases P.step w e <;> intro hs <;> try cases hs
  -- memory is lost, the directory and the broker are as they were
  case case1.refl => exact ⟨hd, hp.recoverable⟩
  case case2.refl hphase hload =>
    rw [hphase] at hp
    exact ⟨hd, (phaseOk_load hd hp).1 hload⟩
  case case3.refl hphase d hload hcomp =>
    rw [hphase] at hp
    exact ⟨hd, ((phaseOk_load hd hp).2 d hload).1 hcomp⟩
  case case4.refl hphase d hload hcomp =>
    rw [hphase] at hp
    exact ⟨hd, ((phaseOk_load hd hp).2 d hload).2 (by simpa using hcomp)⟩
  case case6.refl hphase hc =>
    rw [hphase] at hp
    exact ⟨hd, (phaseOk_probe hd hp).1 hc⟩
  case case7.refl hphase hc =>
    rw [hphase] at hp
    exact ⟨hd, (phaseOk_probe hd hp).2 (by simpa using hc)⟩
  case case9 hphase =>
    rw [hphase] at hp
    obtain ⟨hload, hunsettled⟩ := hp
    obtain ⟨fs', hfs, rfl⟩ := map_eq_some_iff.mp hs
    obtain ⟨hd', hsettled⟩ := settled_updateStatus hd hunsettled hfs
    exact ⟨hd', hsettled, hd.resumes hunsettled.last (hd.load_some hload).2 rfl rfl⟩
  case case11.refl hphase =>
    rw [hphase] at hp
    exact ⟨hd, hp⟩
  case case13.refl hphase =>
    rw [hphase] at hp
    exact ⟨hd, phaseOk_fallback hd hp⟩
  case case16.refl nonce cp hphase hnonce =>
    rw [hphase] at hp
    refine ⟨⟨hd.visible_eq, hd.nodup, hd.placed, ?_, hd.stored⟩, runOk_boot hd hp hnonce⟩
    intro id hid
    obtain ⟨n, hn, hrest⟩ := hd.issued id hid
    exact ⟨n, mem_cons_of_mem nonce hn, hrest⟩
  -- the steps of the running process
  case case18 =>
    obtain ⟨r, r', hr, hf, rfl⟩ := runOk_of_onRunning hp hs
    exact ⟨hd, runOk_forward hr hf⟩
  case case19 =>
    obtain ⟨r, ⟨id, r'⟩, hr, hf, rfl⟩ := runOk_of_onRunning hp hs
    obtain ⟨hd', hr'⟩ := runOk_injectBarrier hd hr hf
    exact ⟨hd', hr'⟩
  case case20 =>
    obtain ⟨r, r', hr, hf, rfl⟩ := runOk_of_onRunning hp hs
    exact ⟨hd, runOk_operate hr hf⟩
  case case21 =>
    obtain ⟨r, r', hr, hf, rfl⟩ := runOk_of_onRunning hp hs
    exact ⟨hd, runOk_tap hr hf⟩
  case case22 =>
    obtain ⟨r, ⟨b', r'⟩, hr, hf, rfl⟩ := runOk_of_onRunning hp hs
    obtain ⟨hr', hv, hm⟩ := runOk_write hr hf
    exact ⟨hd.of_broker hv hm, hr'⟩
  case case23 =>
    obtain ⟨r, c, hr, hf, rfl⟩ := runOk_of_onRunning hp hs
    exact ⟨hd, runOk_finalizeBegin hr hf⟩
  case case24 =>
    obtain ⟨r, ⟨fs', r'⟩, hr, hf, rfl⟩ := runOk_of_onRunning hp hs
    obtain ⟨hd', hr'⟩ := runOk_save hd hr hf
    exact ⟨hd', hr'⟩
  case case25 =>
    obtain ⟨r, ⟨b', r'⟩, hr, hf, rfl⟩ := runOk_of_onRunning hp hs
    obtain ⟨hd', hr'⟩ := runOk_commitSink hd hr hf
    exact ⟨hd', hr'⟩
  case case26 =>
    obtain ⟨r, ⟨fs', r'⟩, hr, hf, rfl⟩ := runOk_of_onRunning hp hs
    obtain ⟨hd', hr'⟩ := runOk_complete hd hr hf
    exact ⟨hd', hr'⟩
  case case27 =>
    obtain ⟨r, ⟨b', r'⟩, hr, hf, rfl⟩ := runOk_of_onRunning hp hs
    obtain ⟨hr', hv, hm⟩ := runOk_close hr hf
    exact ⟨hd.of_broker hv hm, hr'⟩

/-- Exactly-once output: in every reachable state the visible output is that of the uninterrupted
    pipeline on the input ahead of the last committed barrier, and no checkpoint's transaction has
    committed twice. -/
theorem visible_exactly_once {es : List Event} {w : World Rec Out σ Snap Blob}
    (h : Run.exec P.step initial es = some w) :
    w.broker.visible = P.outputs (w.broker.lastCommitted w.barriers) ∧
      w.broker.markers.Nodup ∧ ∀ id ∈ w.broker.markers, (w.barriers id).isSome := by
  have hinv : P.Inv w := Run.exec_invariant (fun _ _ _ hi hs => inv_step hi hs) inv_initial h
  exact ⟨hinv.durable.visible_eq, hinv.durable.nodup, hinv.durable.placed⟩

end Pipeline

/-- Running sums over a log of three numbers. -/
def runningSums : Pipeline ℕ ℕ ℕ ℕ ℕ where
  input := [5, 7, 9]
  operators := ⟨fun s a => (s + a, [s + a])⟩
  init := 0
  offsets := fun _ pos => pos
  restoreOffset := id
  snapshot := id
  restore := id
  txnID := "sums"
  restoreOffset_offsets := fun _ _ => rfl
  restore_snapshot := fun _ => rfl

/-- A first run that crashes between the commit of its second checkpoint and the promotion of it,
    and a second run that recovers and commits a third. -/
def crashAfterCommit : List Event :=
  [.load, .start 1, .forward, .barrier .periodic, .forward, .operate, .operate, .operate,
    .barrier .periodic, .tap, .tap, .write, .write, .finalize, .save, .commit, .tap, .write,
    .complete, .operate, .tap, .write, .finalize, .save, .commit, .crash,
    .load, .probe, .crash, .load, .probe, .promote, .start 2, .forward, .barrier .final,
    .operate, .operate, .tap, .tap, .write, .write, .finalize, .save, .commit, .complete, .close]

/-- Three checkpoints commit over the two runs, and all three running sums are visible once. -/
theorem visible_exactly_once_crashAfterCommit :
    ∃ w, Run.exec runningSums.step Pipeline.initial crashAfterCommit = some w ∧
      w.broker.markers.length = 3 ∧ w.broker.lastCommitted w.barriers = 3 ∧
      w.broker.visible = runningSums.outputs (w.broker.lastCommitted w.barriers) := by
  have hfacts : (Run.exec runningSums.step Pipeline.initial crashAfterCommit).map
      (fun w => (w.broker.markers.length, w.broker.lastCommitted w.barriers)) = some (3, 3) := by
    decide
  obtain ⟨w, hw, hfacts⟩ := map_eq_some_iff.mp hfacts
  obtain ⟨hmarkers, hlast⟩ := Prod.mk.inj hfacts
  exact ⟨w, hw, hmarkers, hlast, (Pipeline.visible_exactly_once hw).1⟩

end Weibo
