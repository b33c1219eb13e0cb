import Weibo.Model.Planner
import Weibo.Spec.LateRecords
import Weibo.Spec.ReduceEviction

/-!
# Eviction behind a parallel window stage

A stateless operator between `Window` and `Reduce` puts them into stages of their own. `Reduce` then
reads the merge of what all workers of the keyed stage emit. Windows that close on the same
watermark in different workers are interleaved there: a record of a window that ends later may come
between two records of one that ends earlier, and `Reduce` starts the earlier one anew.

`merged_eviction_iff` is about every run of every plan with a `Reduce` in a stage of its
own.
-/

namespace Weibo

/-! ## What a stage of a running plan has read -/

variable {tf : TimeFormat}

/-- The stages of a plan with what they have read and emitted. -/
structure PlanRuns (plan : List (StageSpec tf)) (s : CutRun) : Prop where
  ok : exactPlan.Ok s.stages s.forwarded s.delivered
  config_eq : s.stages.map exactStage.config = plan.map fun spec => exactStage.config spec.build

namespace PlanRuns

variable {plan : List (StageSpec tf)} {s s' : CutRun}

theorem send (h : PlanRuns plan s) {r : Record} (hstages : s'.stages = (s.send r).stages)
    (hforwarded : s'.forwarded = s.forwarded ++ [r])
    (hdelivered : s'.delivered = (s.send r).delivered) : PlanRuns plan s' where
  ok := by
    rw [hstages, hforwarded, hdelivered, CutRun.send, ← exactPlan_push]
    exact exactPlan.ok_push _ _ _ [r] h.ok
  config_eq := by
    rw [hstages, CutRun.send, ← exactPlan_push, ← h.config_eq]
    exact exactPlan.config_push s.stages [r]

theorem step (h : PlanRuns plan s) {e : CutRun.Event} (hstep : s.step e = some s') :
    PlanRuns plan s' := by
  revert hstep
  fun_cases CutRun.step s e <;> intro hstep <;> try cases hstep
  case case5 =>
    obtain ⟨⟨stages, out, obs⟩, hstage, rfl⟩ := Option.map_eq_some_iff.mp hstep
    rw [← exactPlan_step] at hstage
    refine ⟨exactPlan.ok_step _ _ _ _ _ _ _ h.ok hstage, ?_⟩
    rw [← h.config_eq]
    exact exactPlan.config_step _ _ _ _ _ hstage
  all_goals exact h.send rfl rfl rfl

theorem of_exec {nonce : ℕ} {es : List CutRun.Event}
    (hs : Run.exec CutRun.step (.initial nonce plan) es = some s) : PlanRuns plan s := by
  refine Run.exec_invariant (fun _ _ _ h hstep => step h hstep) ⟨?_, List.map_map⟩ hs
  exact plan_ok_build exactOperator Cell.exactOk_fresh (fun _ _ _ => rfl) plan

end PlanRuns

/-- In a run, `done` is what the `Reduce` in stage number `n` has read of what the stages ahead of
    it have emitted, and the stages behind it have got what it makes of that. -/
structure ReduceReads (tf : TimeFormat) (n : ℕ) (fn : ReduceFn) (init : ReduceState) (s : CutRun)
    (done : List (KeyOrder × Record)) : Prop where
  front : ∃ merged, exactStage.ChainOk (s.stages.take n) s.forwarded merged ∧
    done.map Prod.snd <+: merged
  behind : exactStage.ChainOk (s.stages.drop (n + 1))
    ((reduceLoop tf fn).toTransducer.outs init done) s.delivered

theorem PlanRuns.exists_reads {front rest : List (StageSpec tf)} {fn : ReduceFn}
    {init : ReduceState} {s : CutRun}
    (h : PlanRuns (front ++ .channel (.reduce fn) init :: rest) s) :
    ∃ done, ReduceReads tf front.length fn init s done := by
  have hconfig : (s.stages.map exactStage.config)[front.length]? =
      some (.inl ⟨reduceLoop tf fn, init⟩) := by
    rw [h.config_eq, List.map_append, List.getElem?_append_right (by rw [List.length_map]),
      List.length_map, Nat.sub_self]
    rfl
  rw [List.getElem?_map, Option.map_eq_some_iff] at hconfig
  obtain ⟨st, hget, hst⟩ := hconfig
  obtain ⟨merged, emitted, hfront, hok, hrest⟩ := exactStage.chainOk_split h.ok hget
  cases st with
  | inr f => simp [exactStage, Component.either] at hst
  | inl c =>
    obtain ⟨M, init', state, inbox, closed⟩ := c
    cases hst
    obtain ⟨done, extra, hsrc, _, hdst, hopen, hclosed⟩ := hok
    -- `Reduce` emits nothing at the end of its input
    have hextra : extra = [] := by
      cases closed with
      | false => exact hopen rfl
      | true =>
        obtain ⟨order, heq⟩ := hclosed rfl
        exact heq
    rw [hextra, List.append_nil] at hdst
    exact ⟨done, ⟨merged, hfront, ⟨inbox, hsrc.symm⟩⟩, hdst ▸ hrest⟩

/-- In every state of every run of a plan in which `Reduce` has a stage of its own: it has read a
    list `done` of what the stages ahead of it have merged, and on this list it emits the same with
    and without eviction, whatever it computes, exactly if no record comes back to a key whose
    accumulator has been dropped. -/
theorem merged_eviction_iff (front rest : List (StageSpec tf)) (fn : ReduceFn) (init : ReduceState)
    (nonce : ℕ) (es : List CutRun.Event) (s : CutRun)
    (hs : Run.exec CutRun.step
      (.initial nonce (front ++ .channel (.reduce fn) init :: rest)) es = some s) :
    ∃ done, ReduceReads tf front.length fn init s done ∧
      ((∀ fn, (reduceLoop tf fn).toTransducer.outs init done =
          (retainLoop fn).toTransducer.outs init.entries done) ↔
        ¬ ReturnsToEvicted tf init.windowFrontier (fun k => (init.entries k).isSome)
          (dataRecords done)) := by
  obtain ⟨done, hreads⟩ := (PlanRuns.of_exec hs).exists_reads
  exact ⟨done, hreads, eviction_visible_iff tf init done⟩

/-! ## Two workers -/

namespace MergedWindows

/-- Hands every record on. -/
def passOn : SingleProcessor :=
  ⟨fun r => [{ r with isBarrier := false, isWatermark := false }],
    fun _ _ hr => List.mem_singleton.mp hr ▸ rfl⟩

/-- `KeyBy` with two workers, windows of length 10, a `Map` and a counting `Reduce`. -/
def program : List Operator :=
  [.keyBy ⟨Record.key, 2⟩, .stateful (.window (tumbling 10 0) none), .single passOn 1,
    .stateful (.reduce countFn)]

def workflow : List WorkflowOperator :=
  [⟨"by-key", .keyBy⟩, ⟨"tumbling", .window⟩, ⟨"pass-on", .map⟩, ⟨"count", .reduce⟩]

/-- The stages ahead of `Reduce`. -/
def front : List (StageSpec CutRun.unaryFormat) :=
  [.keyed ⟨Record.key, 2, Nat.two_pos⟩ [⟨.window (tumbling 10 0) none, fun _ => freshWindows⟩],
    .stateless [passOn] 1]

def plan : List (StageSpec CutRun.unaryFormat) :=
  front ++ [.channel (.reduce countFn) freshReduce]

/-- One watermark closes a window with two records in one worker and a later window with one record
    in the other one. The merge gets them in a given order of the workers, and the stateless stage
    hands them on. -/
def events (workers : List ℕ) : List CutRun.Event :=
  let order : KeyOrder := ⟨id, fun l => List.Perm.refl l⟩
  let keyed : List (ForkEvent (ℕ × Cell.Event KeyOrder)) :=
    [.route, .route, .route, .route, .send, .send, .branch 1 (0, .take order),
      .branch 1 (0, .take order), .branch 1 (0, .take order), .branch 0 (0, .take order),
      .branch 0 (0, .take order)] ++
    workers.map ForkEvent.collect ++ workers.map fun _ => ForkEvent.merge
  let forwarded : List CutRun.Event :=
    [.forward { key := [0] }, .forward { key := [0], timestamp := 1 },
      .forward { key := [1], timestamp := 12 }, .forward (.newWatermark 20)]
  forwarded ++ keyed.map (fun e => CutRun.Event.stage 0 (.inr e)) ++
    workers.map fun _ => CutRun.Event.stage 1 (.inl (.take order))

/-- `Reduce` reads as many records. -/
def takes (workers : List ℕ) : List CutRun.Event :=
  workers.map fun _ => .stage 2 (.inl (.take ⟨id, fun l => List.Perm.refl l⟩))

end MergedWindows

open MergedWindows in
/-- If the later window comes last, the counts are right. -/
theorem merged_eviction_iff_in_order :
    ∃ s, Run.exec CutRun.step (.initial 1 plan) (events [1, 1, 0] ++ takes [1, 1, 0]) = some s ∧
      s.delivered.map (·.value.length) = [0, 1, 0] ∧
      ∃ done, ReduceReads CutRun.unaryFormat 2 countFn freshReduce s done ∧
        ((∀ fn, (reduceLoop CutRun.unaryFormat fn).toTransducer.outs freshReduce done =
            (retainLoop fn).toTransducer.outs freshReduce.entries done) ↔
          ¬ ReturnsToEvicted CutRun.unaryFormat freshReduce.windowFrontier
            (fun k => (freshReduce.entries k).isSome) (dataRecords done)) := by
  have hcounts : (Run.exec CutRun.step (.initial 1 plan) (events [1, 1, 0] ++ takes [1, 1, 0])).map
      (fun s => s.delivered.map (·.value.length)) = some [0, 1, 0] := by decide
  obtain ⟨s, hs, hvalues⟩ := Option.map_eq_some_iff.mp hcounts
  exact ⟨s, hs, hvalues, merged_eviction_iff front [] countFn freshReduce 1 _ s hs⟩

open MergedWindows in
/-- The order of the workflow is accepted and the plan is built. If the record of the later window
    comes between the two others, `Reduce` counts the second of them as the first; without eviction
    it counts two. -/
theorem merged_windows_restart :
    let order : KeyOrder := ⟨id, fun l => List.Perm.refl l⟩
    pipelineErrors 0 false false workflow = [] ∧
      (∃ stages, buildPlan (fun _ => none) true true program ["", "", "", ""] = .ok stages ∧
        stages.filterMap (PlannedStage.spec CutRun.unaryFormat) = plan) ∧
      (Run.exec CutRun.step (.initial 1 plan) (events [1, 0, 1] ++ takes [1, 0, 1])).map
          (fun s => s.delivered.map (·.value.length)) = some [0, 0, 0] ∧
        (Run.exec CutRun.step (.initial 1 front) (events [1, 0, 1])).map (fun s =>
          ((retainLoop countFn).toTransducer.outs freshReduce.entries
            (s.delivered.map (Prod.mk order))).map (·.value.length)) = some [0, 0, 1] := by
  refine ⟨rfl, ⟨_, rfl, rfl⟩, ?_, ?_⟩
  · decide
  · decide

end Weibo
