import Weibo.Spec.ParallelStage

/-!
# Parallel stateless stages

However the dispatcher, the workers and the merge of `runParallel` interleave,
the stage emits the markers of its input in order and between two of them the
data that `runWorker` emits there, in some order.
-/

namespace Weibo

open List

variable {ops : List SingleProcessor}

theorem runWorker_marker {r : Record} (hr : r.isMarker = true) (rs : List Record) :
    runWorker ops (r :: rs) = r :: runWorker ops rs := by
  rw [runWorker, flatMap_cons, if_pos hr]
  rfl

theorem runWorker_data {r : Record} (hr : r.isMarker = false) (rs : List Record) :
    runWorker ops (r :: rs) = processChain ops r ++ runWorker ops rs := by
  rw [runWorker, flatMap_cons, if_neg (by rw [hr]; decide)]
  rfl

/-- The loop that each worker runs is `runWorker`. -/
theorem statelessLoop_outs (done : List (KeyOrder × Record)) :
    (statelessLoop ops).toTransducer.outs () done = runWorker ops (done.map Prod.snd) := by
  induction done with
  | nil => rfl
  | cons x done ih =>
    have hstep : (statelessLoop ops).toTransducer.step () x =
        ((), if x.2.isMarker then [x.2] else processChain ops x.2) := by
      cases hcut : x.2.isCut with
      | true =>
        rw [Machine.toTransducer_step_cut _ hcut, if_pos (Record.isMarker_of_isCut _ hcut)]
      | false => rw [Machine.toTransducer_step_of_not_cut _ hcut]
    rw [Transducer.outs, hstep, map_cons, runWorker, flatMap_cons]
    show _ ++ (statelessLoop ops).toTransducer.outs () done = _
    rw [ih]
    rfl

theorem statelessLoop_completes {src dst : List Record}
    (h : (statelessLoop ops).Completes () src dst) : dst = runWorker ops src := by
  obtain ⟨done, order, rfl, rfl⟩ := h
  rw [statelessLoop_outs]
  exact append_nil _

/-- What the workers make of their lanes is, between two markers, spread over them. -/
theorem spread_roundRobin {n : ℕ} (pos : 0 < n) (next : Fin n) (input : List Record) :
    Spread Record.isMarker
      (fun w => runWorker ops (((roundRobin pos).lane w).outs next input))
      (runWorker ops input) := by
  induction input generalizing next with
  | nil => exact Spread.nil
  | cons r input ih =>
    cases hr : r.isMarker with
    | true =>
      have hlane : ∀ w, runWorker ops (((roundRobin pos).lane w).outs next (r :: input)) =
          r :: runWorker ops (((roundRobin pos).lane w).outs next input) := by
        intro w
        rw [Transducer.outs, (roundRobin pos).lane_step_of_align w next hr, singleton_append,
          runWorker_marker hr]
      rw [funext hlane, runWorker_marker hr]
      exact (ih next).marker hr
    | false =>
      -- the record goes to worker `next`, and the round robin moves on
      have hlane : ∀ w, runWorker ops (((roundRobin pos).lane w).outs next (r :: input)) =
          (if next = w then processChain ops r else []) ++
            runWorker ops (((roundRobin pos).lane w).outs
              ⟨(next + 1) % n, Nat.mod_lt _ pos⟩ input) := by
        intro w
        rw [Transducer.outs, (roundRobin pos).lane_step_of_not_align w next hr]
        dsimp only
        split
        · rw [singleton_append, runWorker_data hr]
        · rw [nil_append, nil_append]
      rw [funext hlane, runWorker_data hr]
      refine Spread.data _ _ ?_ (filter_isMarker_eq_nil (processChain_isMarker ops hr)) (ih _)
      have hite : ∀ w, ((if next = w then processChain ops r else [] : List Record) :
          Multiset Record) = if next = w then (processChain ops r : Multiset Record) else 0 := by
        intro w
        split <;> rfl
      rw [Finset.sum_congr rfl fun w _ => hite w, Finset.sum_ite_eq, if_pos (Finset.mem_univ _)]

namespace ParallelStage

/-- A parallel stateless stage can always be brought to its end, and then it has emitted what the
    serial stage emits, up to the order between two markers. -/
theorem stateless_serial (ops : List SingleProcessor) {n : ℕ} (pos : 0 < n) (caps : StageCaps n)
    (input : List Record) (es : List (Event n))
    (s : ParallelStage (statelessLoop ops) (roundRobin pos))
    (hs : Run.exec step (start caps (fun _ => ()) (⟨0, pos⟩ : Fin n) input) es = some s) :
    (∃ es' s', Run.exec step s es' = some s' ∧ Run.Stuck step s') ∧
      (Run.Stuck step s → (∃ k, s.outputs.merge.loop = .returned k) ∧
        SegmentwisePerm Record.isMarker s.outputs.merge.out (runWorker ops input)) := by
  obtain ⟨hend, hstuck⟩ := completes pos caps _ _ _ hs
  refine ⟨hend, fun h => ?_⟩
  obtain ⟨hret, os, hos, haligned⟩ := hstuck h
  refine ⟨hret, ?_⟩
  have hworkers : os = fun w =>
      runWorker ops (((roundRobin pos).lane w).outs ⟨0, pos⟩ input) :=
    funext fun w => statelessLoop_completes (hos w)
  rw [hworkers] at haligned
  have : Nonempty (Fin n) := ⟨⟨0, pos⟩⟩
  exact (spread_roundRobin pos ⟨0, pos⟩ input).segmentwisePerm haligned

/-- Every record twice. -/
def twice : SingleProcessor where
  processOne r := if r.isMarker then [] else [r, r]
  processOne_isMarker r r' hr' := by
    cases hr : r.isMarker with
    | true => simp [hr] at hr'
    | false =>
      rw [if_neg (by rw [hr]; decide)] at hr'
      have heq : r' = r := by simpa using hr'
      rw [heq, hr]

/-- Two workers with channels that hold one record. -/
theorem stateless_serial_twice :
    ∃ es s, Run.exec step (start ⟨⟨fun _ => 1, 1, 1⟩, fun _ => 1⟩ (fun _ => ()) (0 : Fin 2)
        [{ key := [0] }, { key := [1] }, .newWatermark 5, { key := [2] }] :
          ParallelStage (statelessLoop [twice]) (roundRobin (n := 2) (by decide))) es = some s ∧
      Run.Stuck step s ∧ SegmentwisePerm Record.isMarker s.outputs.merge.out
        (runWorker [twice] [{ key := [0] }, { key := [1] }, .newWatermark 5, { key := [2] }]) := by
  obtain ⟨⟨es, s, hs, hstuck⟩, -⟩ := stateless_serial [twice] (n := 2) (by decide)
    ⟨⟨fun _ => 1, 1, 1⟩, fun _ => 1⟩
    [{ key := [0] }, { key := [1] }, .newWatermark 5, { key := [2] }] [] _ rfl
  obtain ⟨-, hend⟩ := stateless_serial [twice] (by decide) _ _ es s hs
  exact ⟨es, s, hs, hstuck, (hend hstuck).2⟩

end ParallelStage

end Weibo
