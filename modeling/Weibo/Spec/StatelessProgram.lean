import Weibo.Spec.ConsistentCut
import Weibo.Spec.ParallelStateless
import Weibo.Spec.PlanPreservation

/-!
# Programs of stateless operators

`BuildPlan` splits such a program into stages of different parallelism, and each parallel stage runs
a dispatcher, workers and a merge. However they interleave, what has come out ahead of a barrier is
what one worker with all the operators makes of the input ahead of it, up to the order between two
markers.
-/

namespace Weibo

open List Record

variable {ops : List SingleProcessor} {f g : List Record}

/-! ## One chain behind the other -/

theorem processChain_append (ops ops' : List SingleProcessor) (r : Record) :
    processChain (ops ++ ops') r = (processChain ops r).flatMap (processChain ops') := by
  induction ops' using reverseRecOn with
  | nil => rw [append_nil]; exact (flatMap_singleton' _).symm
  | append_singleton ops' sp ih =>
    have hlast : ∀ (ops : List SingleProcessor) (r : Record), processChain (ops ++ [sp]) r =
        (processChain ops r).flatMap sp.processOne := fun ops r => foldl_append ..
    rw [← append_assoc, hlast, ih, flatMap_assoc]
    exact flatMap_congr fun r' _ => (hlast ops' r').symm

theorem runWorker_append (ops ops' : List SingleProcessor) :
    runWorker (ops ++ ops') f = runWorker ops' (runWorker ops f) := by
  rw [runWorker, runWorker, runWorker, flatMap_assoc]
  apply flatMap_congr
  intro r _
  cases hr : r.isMarker with
  | true => simp [hr]
  | false =>
    simp only [Bool.false_eq_true, if_false, processChain_append]
    exact flatMap_congr fun r' hr' => (if_neg (by simp [processChain_isMarker ops hr r' hr'])).symm

/-- A worker keeps the markers, and a reordering between them. -/
theorem runWorker_segmentwisePerm (ops : List SingleProcessor) (h : SegmentwisePerm isMarker g f) :
    SegmentwisePerm isMarker (runWorker ops g) (runWorker ops f) :=
  h.flatMap (fun _ hr => if_pos hr) fun r hr => by
    rw [if_neg (by simp [hr])]
    exact filter_isMarker_eq_nil (processChain_isMarker ops hr)

/-! ## Stages -/

/-- What a serial stage or one worker emits. -/
theorem statelessCell_emits (h : operatorComponent.Emits
      (operatorComponent.config (Cell.fresh (statelessLoop ops) ())) f g) : g = runWorker ops f := by
  obtain ⟨done, rfl, rfl⟩ := h
  exact statelessLoop_outs done

variable {tf : TimeFormat}

theorem stateless_emits {parallelism : ℕ} (h : stageComponent.Emits
      (stageComponent.config (StageSpec.build (.stateless ops parallelism : StageSpec tf))) f g) :
    SegmentwisePerm isMarker g (runWorker ops f) := by
  rw [StageSpec.build] at h
  split at h
  · rename_i hpar
    have pos := Nat.lt_of_succ_lt hpar
    obtain ⟨os, hos, haligned⟩ := h
    have hworkers : os = fun w => runWorker ops (((roundRobin pos).lane w).outs ⟨0, pos⟩ f) := by
      funext w
      obtain ⟨mid, hmid, hend⟩ := hos w
      obtain rfl : mid = os w := hend
      exact statelessCell_emits hmid
    rw [hworkers] at haligned
    have : Nonempty (Fin parallelism) := ⟨⟨0, pos⟩⟩
    exact (spread_roundRobin pos _ f).segmentwisePerm haligned
  · obtain rfl := statelessCell_emits h
    exact ⟨rfl, fun _ => .rfl⟩

/-- A plan of stateless stages, each with its operators and its parallelism. -/
theorem statelessPlan_emits {groups : List (List SingleProcessor × ℕ)}
    (h : planComponent.Emits
      (planConfig (groups.map fun x => (.stateless x.1 x.2 : StageSpec tf))) f g) :
    SegmentwisePerm isMarker g (runWorker (groups.flatMap Prod.fst) f) := by
  induction groups generalizing f with
  | nil =>
    obtain rfl : f = g := h
    have hrun : runWorker [] f = f := by simp [runWorker, processChain]
    rw [flatMap_nil, hrun]
    exact ⟨rfl, fun _ => .rfl⟩
  | cons x groups ih =>
    obtain ⟨mid, hmid, hrest⟩ := h
    rw [flatMap_cons, runWorker_append]
    exact (ih hrest).trans (runWorker_segmentwisePerm _ (stateless_emits hmid))

/-! ## Programs -/

/-- The stages of a plan cover its program. -/
theorem buildPlan_covers {errs : BackendErrors} {hasSource hasSink : Bool}
    {operators : List Operator} {labels : List String} {plan : List PlannedStage}
    (h : buildPlan errs hasSource hasSink operators labels = .ok plan) :
    ∃ stages pieces, plan = .source :: stages ++ [.sink] ∧
      Forall₂ PlannedStage.Covers stages pieces ∧ pieces.flatten.map Prod.fst = operators := by
  revert h
  fun_cases buildPlan errs hasSource hasSink operators labels <;> intro h <;> cases h
  case case5.refl hlen b hloop =>
    obtain ⟨index, hinv⟩ := PlanBuild.loop_inv PlanBuild.start_inv hloop
    obtain ⟨stages, hstages, -, -, hok, -⟩ := PlanBuild.flush_inv hinv
    obtain ⟨pieces, hcovers, hpieces⟩ := hok.covers
    refine ⟨stages, pieces, by rw [hstages], hcovers, ?_⟩
    rw [hpieces, nil_append, drop_zero, map_fst_zip (Nat.le_of_eq (not_not.mp hlen).symm)]

/-- If only stateless operators are covered, the stages are stateless, with groups that make up the
    program. -/
theorem groups_of_covers (tf : TimeFormat) {stages : List PlannedStage}
    {pieces : List (List (Operator × String))}
    (h : Forall₂ PlannedStage.Covers stages pieces) {program : List (SingleProcessor × Int)}
    (hprogram : pieces.flatten.map Prod.fst = program.map fun x => .single x.1 x.2) :
    ∃ groups : List (List SingleProcessor × ℕ),
      stages.filterMap (PlannedStage.spec tf) = groups.map (fun x => .stateless x.1 x.2) ∧
      groups.flatMap Prod.fst = program.map Prod.fst := by
  induction h generalizing program with
  | nil => exact ⟨[], rfl, by simpa using hprogram⟩
  | cons hcovers hrest ih =>
    rw [flatten_cons, map_append] at hprogram
    cases hcovers with
    | @stateless _ ops _ par _ _ hops =>
      obtain ⟨ops', program, rfl, hops', hprogram⟩ := map_eq_append_iff.mp hprogram.symm
      obtain ⟨groups, hspec, hgroups⟩ := ih hprogram.symm
      refine ⟨(ops.map Prod.fst, par) :: groups, by rw [filterMap_cons, hspec]; rfl, ?_⟩
      have hsame : ops = ops' := by
        refine map_injective_iff.mpr ?_ (hops.symm.trans hops'.symm)
        rintro ⟨sp, par⟩ ⟨sp', par'⟩ heq
        cases heq
        rfl
      rw [flatMap_cons, hgroups, hsame, map_append]
    | keyed | channel => cases program <;> cases hprogram

/-- However `BuildPlan` has split a program of stateless operators, and however its stages have
    interleaved: ahead of a barrier the sink has got what one worker makes of what the source sent
    ahead of it, up to the order between two markers. -/
theorem stateless_program {errs : BackendErrors} {hasSource hasSink : Bool}
    {program : List (SingleProcessor × Int)} {labels : List String} {plan : List PlannedStage}
    (hplan : buildPlan errs hasSource hasSink (program.map fun x => .single x.1 x.2) labels =
      .ok plan) {runNonce : ℕ} {es : List CutRun.Event} {s : CutRun}
    (hs : Run.exec CutRun.step (.initial runNonce (plan.filterMap (PlannedStage.spec tf))) es =
      some s) {m : Record} (hm : m.isCut = true) (hg : g ++ [m] <+: s.delivered) :
    ∃ f, f ++ [m] <+: s.forwarded ∧
      SegmentwisePerm isMarker g (runWorker (program.map Prod.fst) f) := by
  obtain ⟨stages, pieces, rfl, hcovers, hpieces⟩ := buildPlan_covers hplan
  obtain ⟨groups, hspec, hgroups⟩ := groups_of_covers tf hcovers hpieces
  have hinv := Run.exec_invariant (fun _ e _ => CutRun.inv_step e) (CutRun.inv_initial runNonce) hs
  obtain ⟨g₂, hg⟩ := hg
  rw [append_assoc] at hg
  obtain ⟨f, f₂, hf, hemits⟩ := planComponent.ok_cut _ _ _ _ m g₂ hinv.ok hinv.nodup_cuts hm hg.symm
  refine ⟨f, ⟨f₂, by rw [hf, append_assoc]; rfl⟩, ?_⟩
  have hspecs : filterMap (PlannedStage.spec tf) (.source :: stages ++ [.sink]) =
      groups.map fun x => .stateless x.1 x.2 := by
    rw [cons_append, filterMap_cons_none rfl, filterMap_append, hspec]
    exact append_nil _
  rw [hinv.config_eq, hspecs] at hemits
  rw [← hgroups]
  exact statelessPlan_emits hemits

/-- The plan of one map that two workers run. -/
def mapPlan : List PlannedStage :=
  [.source, .stateless "stateless-0" [(handOn, 2)] ["a"] 2, .sink]

/-- A record goes through the first worker, a barrier through both. -/
def toTheSink : List CutRun.Event :=
  let order : KeyOrder := ⟨id, fun l => .refl l⟩
  [.forward { key := [0] }, .barrier .periodic] ++
  [.route, .route, .send, .send, .branch 0 (0, .take order), .branch 0 (0, .take order),
    .branch 1 (0, .take order), .collect 1, .collect 0, .collect 0, .merge, .merge,
    .merge].map fun e => .stage 0 (.inr e)

theorem stateless_program_two_workers :
    ∃ s f, Run.exec CutRun.step
        (.initial 1 (mapPlan.filterMap (PlannedStage.spec CutRun.unaryFormat))) toTheSink = some s ∧
      f ++ [newBarrier (mkID 1 1 .periodic)] <+: s.forwarded ∧
      SegmentwisePerm isMarker [{ key := [0] }] (runWorker [handOn] f) := by
  have hplan : buildPlan (fun _ => none) true true ([(handOn, 2)].map fun x => .single x.1 x.2)
      ["a"] = .ok mapPlan := rfl
  have hdelivered : (Run.exec CutRun.step
      (.initial 1 (mapPlan.filterMap (PlannedStage.spec CutRun.unaryFormat))) toTheSink).map
        CutRun.delivered = some ([{ key := [0] }] ++ [newBarrier (mkID 1 1 .periodic)]) := rfl
  obtain ⟨s, hs, hdelivered⟩ := Option.map_eq_some_iff.mp hdelivered
  obtain ⟨f, hf, hout⟩ := stateless_program hplan hs (newBarrier_isCut _)
    ⟨[], (append_nil _).trans hdelivered.symm⟩
  exact ⟨s, f, hs, hf, hout⟩

end Weibo
