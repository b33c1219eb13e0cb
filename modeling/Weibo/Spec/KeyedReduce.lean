import Weibo.Spec.ConsistentCut
import Weibo.Spec.ParallelStage

/-!
# Keyed parallelism is invisible to Reduce

All data records of one key go to one worker, in order, and the workers'
accumulators of different keys do not touch each other.  So the records that a
keyed stage emits for a key are those of one `Reduce` over the whole stream.
-/

namespace Weibo

open List Record

/-! ## The router, key by key -/

/-- A data record of a given key. -/
def Record.isDataOf (k : Bytes) (r : Record) : Bool := r.isData && r.key == k

theorem Record.isDataOf_of_isMarker {k : Bytes} {r : Record} (h : r.isMarker = true) :
    r.isDataOf k = false := by
  rw [isDataOf, isMarker_eq_true.mp h, Bool.false_and]

theorem Record.isDataOf_of_not_isMarker {k : Bytes} {r : Record} (h : r.isMarker = false) :
    r.isDataOf k = (r.key == k) := by
  rw [isDataOf, isMarker_eq_false.mp h, Bool.true_and]

namespace KeyBy

/-- A stream with the data under its selected keys. -/
def rekeyStream (kb : KeyBy) (rs : List Record) : List Record :=
  rs.map fun r => if r.isMarker then r else kb.rekey r

theorem rekeyStream_marker (kb : KeyBy) {r : Record} (hr : r.isMarker = true) (rs : List Record) :
    kb.rekeyStream (r :: rs) = r :: kb.rekeyStream rs := by
  rw [rekeyStream, map_cons, if_pos hr]
  rfl

theorem rekeyStream_data (kb : KeyBy) {r : Record} (hr : r.isMarker = false) (rs : List Record) :
    kb.rekeyStream (r :: rs) = kb.rekey r :: kb.rekeyStream rs := by
  rw [rekeyStream, map_cons, if_neg (by rw [hr]; decide)]
  rfl

/-- A worker gets part of the stream, in order. -/
theorem lane_sublist (kb : KeyBy) (w : Fin kb.partitions) (rs : List Record) :
    ((kb.router.lane w).outs () rs).Sublist (kb.rekeyStream rs) := by
  induction rs with
  | nil => exact List.Sublist.refl _
  | cons r rs ih =>
    cases hr : r.isMarker with
    | true =>
      rw [kb.lane_outs_marker w hr, kb.rekeyStream_marker hr]
      exact ih.cons_cons r
    | false =>
      rw [kb.lane_outs_data w hr, kb.rekeyStream_data hr]
      split
      · exact ih.cons_cons _
      · exact ih.cons _

/-- The data of a key goes to the key's worker, all of it and in order. -/
theorem lane_isDataOf (kb : KeyBy) (w : Fin kb.partitions) (k : Bytes) (rs : List Record) :
    ((kb.router.lane w).outs () rs).filter (isDataOf k) =
      if kb.routeKey k = w then (kb.rekeyStream rs).filter (isDataOf k) else [] := by
  induction rs with
  | nil => rw [Transducer.outs_nil, filter_nil, rekeyStream, map_nil, filter_nil, ite_self]
  | cons r rs ih =>
    cases hr : r.isMarker with
    | true =>
      have hneg : ¬ r.isDataOf k = true := by rw [isDataOf_of_isMarker hr]; decide
      rw [kb.lane_outs_marker w hr, kb.rekeyStream_marker hr, filter_cons_of_neg hneg,
        filter_cons_of_neg hneg, ih]
    | false =>
      have hkey : (kb.rekey r).isDataOf k = (kb.keySelector r == k) :=
        isDataOf_of_not_isMarker hr
      rw [kb.lane_outs_data w hr, kb.rekeyStream_data hr, filter_append, ih]
      by_cases hk : kb.keySelector r = k
      · have hpos : (kb.rekey r).isDataOf k = true := by rw [hkey, hk, beq_self_eq_true]
        rw [hk, filter_cons_of_pos hpos]
        split
        · rw [filter_cons_of_pos hpos, filter_nil, singleton_append]
        · rfl
      · have hneg : ¬ (kb.rekey r).isDataOf k = true := by
          rw [hkey, beq_iff_eq]
          exact hk
        rw [filter_cons_of_neg hneg]
        split
        · rw [filter_cons_of_neg hneg, filter_nil, nil_append]
        · rw [filter_nil, nil_append]

end KeyBy

/-! ## Reduce, key by key -/

/-- What `Reduce` emits for the records of one key. -/
def reduceKey (fn : ReduceFn) : Option Bytes → List Record → List Record
  | _, [] => []
  | accum, r :: rs =>
    let newAccum := (fn accum r).getD []
    { key := r.key, value := newAccum, timestamp := r.timestamp, offset := r.offset,
      headers := r.headers } :: reduceKey fn (some newAccum) rs

/-- The loop on a marker, and on a data record. -/
theorem reduceLoop_step_marker (tf : TimeFormat) (fn : ReduceFn) (s : ReduceState)
    {x : KeyOrder × Record} (hx : x.2.isMarker = true) :
    (reduceLoop tf fn).toTransducer.step s x = (s, [x.2]) :=
  OperatorLoop.step_marker _ hx fun hw => if_pos hw

theorem reduceLoop_step_data (tf : TimeFormat) (fn : ReduceFn) (s : ReduceState)
    {x : KeyOrder × Record} (hx : x.2.isMarker = false) :
    (reduceLoop tf fn).toTransducer.step s x = reduceRecord tf fn s x.2 := by
  rw [OperatorLoop.step_data _ hx]
  exact if_neg (by rw [(Bool.or_eq_false_iff.mp hx).2]; decide)

/-- What the loop emits for a key depends on the records of that key only. -/
theorem reduceLoop_outs_isDataOf (tf : TimeFormat) (fn : ReduceFn) (k : Bytes) (s : ReduceState)
    {done : List (KeyOrder × Record)}
    (hdone : ∀ r ∈ done.map Prod.snd, r.isData = true → Unwindowed r) :
    ((reduceLoop tf fn).toTransducer.outs s done).filter (isDataOf k) =
      reduceKey fn (s.entries k) ((done.map Prod.snd).filter (isDataOf k)) := by
  induction done generalizing s with
  | nil => rfl
  | cons x done ih =>
    rw [map_cons] at hdone ⊢
    have hrest := fun s => ih s fun r hr => hdone r (mem_cons_of_mem _ hr)
    rw [Transducer.outs, filter_append]
    cases hx : x.2.isMarker with
    | true =>
      have hneg : ¬ x.2.isDataOf k = true := by rw [isDataOf_of_isMarker hx]; decide
      rw [reduceLoop_step_marker tf fn s hx, filter_cons_of_neg hneg,
        filter_cons_of_neg hneg, filter_nil, nil_append]
      exact hrest s
    | false =>
      have hdata := isMarker_eq_false.mp hx
      obtain ⟨hstart, hend⟩ := hdone x.2 mem_cons_self hdata
      rw [reduceLoop_step_data tf fn s hx, hrest, reduceRecord_of_no_window tf fn s hstart hend]
      by_cases hk : x.2.key = k
      · subst hk
        have hpos : x.2.isDataOf x.2.key = true := by
          rw [isDataOf_of_not_isMarker hx, beq_self_eq_true]
        rw [filter_cons_of_pos hpos, Function.update_self, reduceKey, reduceRecord,
          stateKey_of_no_window hstart, filter_cons_of_pos (by simp [isDataOf, isData])]
        rfl
      · have hneg : ¬ x.2.isDataOf k = true := by
          rw [isDataOf_of_not_isMarker hx, beq_iff_eq]
          exact hk
        rw [filter_cons_of_neg hneg, Function.update_of_ne (Ne.symm hk), reduceRecord,
          filter_cons_of_neg (by simp [isDataOf, hk])]
        rfl

/-- The records that a complete `Reduce` emits for a key. -/
theorem reduce_completes_isDataOf {tf : TimeFormat} {fn : ReduceFn} {init : ReduceState}
    {src dst : List Record} (h : (reduceLoop tf fn).Completes init src dst)
    (hsrc : ∀ r ∈ src, r.isData = true → Unwindowed r) (k : Bytes) :
    dst.filter (isDataOf k) = reduceKey fn (init.entries k) (src.filter (isDataOf k)) := by
  obtain ⟨done, order, rfl, rfl⟩ := h
  rw [show (reduceLoop tf fn).flush order _ = [] from rfl, append_nil]
  exact reduceLoop_outs_isDataOf tf fn k init hsrc

/-- Selecting keys leaves the headers alone. -/
theorem KeyBy.unwindowed_rekeyStream (kb : KeyBy) {rs : List Record}
    (h : ∀ r ∈ rs, r.isData = true → Unwindowed r) :
    ∀ r ∈ kb.rekeyStream rs, r.isData = true → Unwindowed r := by
  intro r hr hdata
  obtain ⟨r₀, hr₀, rfl⟩ := List.mem_map.mp hr
  split at hdata
  case isTrue hm =>
    rw [if_pos hm]
    exact h r₀ hr₀ hdata
  case isFalse hm =>
    rw [if_neg hm]
    exact h r₀ hr₀ hdata

namespace ParallelStage

/-- A keyed `Reduce` can always be brought to its end, each key's data goes to one worker in order,
    and at the end the records emitted for a key are those of one sequential `Reduce` over the
    stream with the selected keys. -/
theorem keyed_reduce_sequential (tf : TimeFormat) (fn : ReduceFn) (kb : KeyBy)
    (caps : StageCaps kb.partitions) (init : ReduceState) (input : List Record)
    (hinput : ∀ r ∈ input, r.isData = true → Unwindowed r) (es : List (Event kb.partitions))
    (s : ParallelStage (reduceLoop tf fn) kb.router)
    (hs : Run.exec step (start caps (fun _ => init) () input) es = some s) :
    (∃ es' s', Run.exec step s es' = some s' ∧ Run.Stuck step s') ∧
      (∀ w k, ((kb.router.lane w).outs () input).filter (Record.isDataOf k) =
        if kb.routeKey k = w then (kb.rekeyStream input).filter (Record.isDataOf k) else []) ∧
      (Run.Stuck step s → (∃ k, s.outputs.merge.loop = .returned k) ∧
        ∀ seq, (reduceLoop tf fn).Completes init (kb.rekeyStream input) seq →
          ∀ k, s.outputs.merge.out.filter (Record.isDataOf k) =
            seq.filter (Record.isDataOf k)) := by
  obtain ⟨hend, hstuck⟩ := completes kb.pos caps _ _ _ hs
  refine ⟨hend, fun w k => kb.lane_isDataOf w k input, fun h => ?_⟩
  obtain ⟨hret, os, hos, haligned⟩ := hstuck h
  refine ⟨hret, fun seq hseq k => ?_⟩
  have hrekeyed := kb.unwindowed_rekeyStream hinput
  have hworker : ∀ w, (os w).filter (Record.isDataOf k) = reduceKey fn (init.entries k)
      (((kb.router.lane w).outs () input).filter (Record.isDataOf k)) := fun w =>
    reduce_completes_isDataOf (hos w)
      (fun r hr => hrekeyed r ((kb.lane_sublist w input).subset hr)) k
  -- only the key's worker emits records of the key
  have hone : ∀ v, v ≠ kb.routeKey k → (os v).filter (Record.isDataOf k) = [] := by
    intro v hv
    rw [hworker v, kb.lane_isDataOf, if_neg (Ne.symm hv)]
    rfl
  rw [haligned.filter_of_one (fun r hr => Record.isDataOf_of_isMarker hr) hone, hworker,
    kb.lane_isDataOf, if_pos rfl, reduce_completes_isDataOf hseq hrekeyed k]

/-- Keys `0` and `1` with a barrier between their records. -/
def mixedKeys : List Record :=
  [{ key := [0] }, { key := [1], offset := 1 }, .newBarrier "1", { key := [0], offset := 2 },
    { key := [1], offset := 3 }]

/-- Two workers that count the records per key, with unbuffered channels. -/
theorem keyed_reduce_sequential_count :
    ∃ es s, Run.exec step (start ⟨⟨fun _ => 0, 0, 0⟩, fun _ => 0⟩
        (fun _ => (⟨fun _ => none, zeroTime⟩ : ReduceState)) () mixedKeys :
          ParallelStage (reduceLoop CutRun.unaryFormat fun accum _ => some (1 :: accum.getD []))
            (⟨Record.key, 2, by decide⟩ : KeyBy).router) es = some s ∧
      Run.Stuck step s ∧
      (s.outputs.merge.out.filter (Record.isDataOf [0])).map Record.value = [[1], [1, 1]] := by
  have hinput : ∀ r ∈ mixedKeys, r.isData = true → Unwindowed r := by
    intro r hr _
    fin_cases hr <;> exact ⟨rfl, rfl⟩
  obtain ⟨⟨es, s, hs, hstuck⟩, -⟩ := keyed_reduce_sequential CutRun.unaryFormat
    (fun accum _ => some (1 :: accum.getD [])) ⟨Record.key, 2, by decide⟩
    ⟨⟨fun _ => 0, 0, 0⟩, fun _ => 0⟩ ⟨fun _ => none, zeroTime⟩ mixedKeys hinput [] _ rfl
  obtain ⟨-, -, hseq⟩ := keyed_reduce_sequential _ _ _ _ _ _ hinput es s hs
  refine ⟨es, s, hs, hstuck, ?_⟩
  have order : KeyOrder := ⟨id, fun l => List.Perm.refl l⟩
  rw [(hseq hstuck).2 _ ⟨mixedKeys.map fun r => (order, r), order, rfl, rfl⟩ [0]]
  rfl

end ParallelStage

end Weibo
