import Weibo.Spec.KeyedReduce
import Weibo.Spec.WindowFiring

/-!
# Keyed parallelism is invisible to windows

The buffers of the workers of a keyed stage are the parts of the buffers that a single window
operator would hold, by the worker of the window's key, and all watermarks are the same. Firing
windows keeps it that way, and what the workers fire is what the single operator fires, in some
order. So between two barriers a keyed window stage emits the same records for every number of
workers.

## Key results

- `Shared`: how the workers' states make up the state of the single operator
- `spread_window`: what the workers make of their lanes is what the single
  operator makes of the stream, spread over them
-/

namespace Weibo

open Function List Record OperatorLoop

/-! ## A complete run of a loop, one record at a time -/

namespace OperatorLoop

variable {M : OperatorLoop} {init : M.State}

theorem completes_nil {dst : List Record} (h : M.Completes init [] dst) :
    ∃ order, dst = M.flush order init := by
  obtain ⟨done, order, hdone, rfl⟩ := h
  obtain rfl := map_eq_nil_iff.mp hdone
  exact ⟨order, rfl⟩

variable {r : Record}

theorem completes_cons {src dst : List Record} (h : M.Completes init (r :: src) dst) :
    ∃ order dst', dst = (M.toTransducer.step init (order, r)).2 ++ dst' ∧
      M.Completes (M.toTransducer.step init (order, r)).1 src dst' := by
  obtain ⟨done, order, hdone, rfl⟩ := h
  obtain ⟨⟨o, r'⟩, done, rfl, rfl, rfl⟩ := map_eq_cons_iff.mp hdone
  refine ⟨o, _, ?_, done, order, rfl, rfl⟩
  rw [Transducer.outs, append_assoc]
  rfl

end OperatorLoop

/-! ## The window loop on each kind of record -/

section Steps

variable (tf : TimeFormat) (assigner : WindowAssigner) (reducer : Option ReduceFn)

theorem windowLoop_step_cut (s : WindowState) (order : KeyOrder) (hr : r.isCut = true) :
    (windowLoop tf assigner reducer).toTransducer.step s (order, r) = (s, [r]) :=
  Machine.toTransducer_step_cut _ hr

theorem windowLoop_step_watermark (s : WindowState) (order : KeyOrder) (hr : r.isWatermark = true) :
    (windowLoop tf assigner reducer).toTransducer.step s (order, r) =
      handleWatermark tf reducer order s r := by
  rw [step_watermark _ hr]
  exact if_pos hr

theorem windowLoop_step_data (s : WindowState) (order : KeyOrder) (hr : r.isMarker = false) :
    (windowLoop tf assigner reducer).toTransducer.step s (order, r) =
      (windowRecord tf assigner order s r, []) := by
  rw [step_data _ hr]
  exact if_neg (by rw [(Bool.or_eq_false_iff.mp hr).2]; decide)

end Steps

/-! ## Shared buffers -/

/-- The record key of a backend key. -/
def windowRecordKey (tf : TimeFormat) (k : Bytes) : Bytes := (parseWindowKey tf k).key

theorem windowRecordKey_string (tf : TimeFormat) (key : Bytes) (win : Window) :
    windowRecordKey tf ((toWindowKey key win).string tf) = key := by
  rw [windowRecordKey, parseWindowKey_string]
  rfl

/-- The buffers `parts` are those of `ws`, each with the worker of its key. -/
def SharedBuffers {n : ℕ} (tf : TimeFormat) (route : Bytes → Fin n) (ws : WindowBuffers)
    (parts : Fin n → WindowBuffers) : Prop :=
  ∀ w k, (parts w).lookup k = if route (windowRecordKey tf k) = w then ws.lookup k else none

namespace SharedBuffers

variable {n : ℕ} {tf : TimeFormat} {route : Bytes → Fin n} {ws : WindowBuffers}
  {parts : Fin n → WindowBuffers}

variable (h : SharedBuffers tf route ws parts)

include h

theorem getAll_eq {w : Fin n} {k : Bytes} (hk : route (windowRecordKey tf k) = w) : (parts w).getAll k = ws.getAll k := by
  apply getAll_eq_of_lookup
  rw [h w k, if_pos hk]

/-- A record goes into a buffer of its key's worker. -/
theorem append {w : Fin n} {k : Bytes} (hk : route (windowRecordKey tf k) = w) (rs : List Record) :
    SharedBuffers tf route (ws.append k rs) (update parts w ((parts w).append k rs)) := by
  intro v k'
  by_cases hv : v = w
  · subst hv
    rw [update_self, append_lookup, append_lookup, h.getAll_eq hk, h v k']
    by_cases hk' : k' = k
    · subst hk'
      rw [if_pos rfl, if_pos rfl, if_pos hk]
    · rw [if_neg hk', if_neg hk']
  · rw [update_of_ne hv, append_lookup, h v k']
    by_cases hk' : k' = k
    · subst hk'
      have hne : ¬ route (windowRecordKey tf k') = v := fun heq => hv (heq.symm.trans hk)
      rw [if_neg hne, if_neg hne]
    · rw [if_neg hk']

variable {assigner : WindowAssigner}

/-- A data record goes into its windows at its key's worker. -/
theorem handleDataRecord
    (hsession : assigner.isSession = false) (order order' : KeyOrder) (r : Record) :
    SharedBuffers tf route (handleDataRecord tf assigner order ws r) (update parts (route r.key)
        (Weibo.handleDataRecord tf assigner order' (parts (route r.key)) r)) := by
  rw [handleDataRecord_of_not_session tf hsession, handleDataRecord_of_not_session tf hsession]
  generalize assigner.assignWindows r.timestamp = wins
  induction wins generalizing ws parts with
  | nil => simpa using h
  | cons win wins ih =>
    have hkey : route (windowRecordKey tf ((toWindowKey r.key win).string tf)) = route r.key := by
      rw [windowRecordKey_string]
    have hrest := ih (h.append hkey [storedRecord r])
    rwa [update_self, update_idem] at hrest

/-- The workers' windows of a set of keys, and the windows of all these keys. -/
theorem fireAll_sum (reducer : Option ReduceFn) {ks : List Bytes} {kparts : Fin n → List Bytes}
    (hks : ks.Nodup) (hkparts : ∀ w, (kparts w).Nodup)
    (hmem : ∀ w k, k ∈ kparts w ↔ k ∈ ks ∧ route (windowRecordKey tf k) = w) :
    ((fireAll tf reducer ks ws).2 : Multiset Record) =
      ∑ w, ((fireAll tf reducer (kparts w) (parts w)).2 : Multiset Record) := by
  have hpart : ∀ w, ((fireAll tf reducer (kparts w) (parts w)).2 : Multiset Record) =
      ∑ k ∈ ks.toFinset with route (windowRecordKey tf k) = w,
        (fireWindow tf reducer ws k : Multiset Record) := by
    intro w
    rw [Weibo.fireAll_sum tf reducer (hkparts w)]
    have hset : (kparts w).toFinset =
        ks.toFinset.filter fun k => route (windowRecordKey tf k) = w := by
      ext k
      rw [mem_toFinset, hmem, Finset.mem_filter, mem_toFinset]
    rw [hset]
    apply Finset.sum_congr rfl
    intro k hk
    have hlookup : (parts w).lookup k = ws.lookup k := by
      rw [h w k, if_pos (Finset.mem_filter.mp hk).2]
    rw [fireWindow_congr tf reducer hlookup]
  rw [Weibo.fireAll_sum tf reducer hks, Finset.sum_congr rfl fun w _ => hpart w,
    Finset.sum_fiberwise]

/-- After firing, the rest is shared. -/
theorem fireAll_fst (reducer : Option ReduceFn) {ks : List Bytes} {kparts : Fin n → List Bytes}
    (hmem : ∀ w k, k ∈ kparts w ↔ k ∈ ks ∧ route (windowRecordKey tf k) = w) :
    SharedBuffers tf route (fireAll tf reducer ks ws).1
      fun w => (fireAll tf reducer (kparts w) (parts w)).1 := by
  intro w k
  rw [fireAll_lookup, fireAll_lookup, h w k]
  by_cases hk : route (windowRecordKey tf k) = w
  · simp [hmem, hk]
  · simp [hmem, hk]

/-- The keys that the workers' backends enumerate are those of the single one. -/
theorem mem_keys (order : KeyOrder) (orders : Fin n → KeyOrder) (w : Fin n) (k : Bytes) :
    k ∈ (orders w).1 (parts w).keys ↔ k ∈ order.1 ws.keys ∧ route (windowRecordKey tf k) = w := by
  rw [KeyOrder.mem_keys, KeyOrder.mem_keys, h w k]
  by_cases hk : route (windowRecordKey tf k) = w
  · simp [hk]
  · simp [hk]

end SharedBuffers

/-- The workers' states make up the state of the single operator. -/
structure Shared {n : ℕ} (tf : TimeFormat) (route : Bytes → Fin n) (s : WindowState)
    (parts : Fin n → WindowState) : Prop where
  buffers : SharedBuffers tf route s.windows fun w => (parts w).windows
  currentWatermark : ∀ w, (parts w).currentWatermark = s.currentWatermark

namespace Shared

variable {n : ℕ} {tf : TimeFormat} {route : Bytes → Fin n} {s : WindowState}
  {parts : Fin n → WindowState}

variable (h : Shared tf route s parts)

include h

/-- A data record is late for its worker if it is late for the single operator, and is buffered
    otherwise. -/
theorem windowRecord
    (hsession : assigner.isSession = false) (order order' : KeyOrder) (r : Record) :
    Shared tf route (windowRecord tf assigner order s r) (update parts (route r.key)
        (Weibo.windowRecord tf assigner order' (parts (route r.key)) r)) := by
  rw [Weibo.windowRecord, Weibo.windowRecord, h.currentWatermark]
  split
  · rwa [update_eq_self]
  · constructor
    · intro w k
      rw [← h.buffers.handleDataRecord hsession order order' r w k]
      by_cases hw : w = route r.key
      · subst hw
        simp
      · simp only [update_of_ne hw]
    · intro w
      by_cases hw : w = route r.key
      · subst hw
        simp
      · simp only [update_of_ne hw]
        exact h.currentWatermark w

/-- The keys of the windows that a watermark closes. -/
theorem mem_closed (order : KeyOrder) (orders : Fin n → KeyOrder)
    (ts : Int) (w : Fin n) (k : Bytes) :
    k ∈ ((orders w).1 (parts w).windows.keys).filter (fun k =>
        decide ((parseWindowKey tf k).stop ≤ max (parts w).currentWatermark ts)) ↔
      k ∈ (order.1 s.windows.keys).filter (fun k =>
        decide ((parseWindowKey tf k).stop ≤ max s.currentWatermark ts)) ∧
      route (windowRecordKey tf k) = w := by
  rw [mem_filter, mem_filter, h.buffers.mem_keys order orders, h.currentWatermark]
  exact and_right_comm

theorem handleWatermark (reducer : Option ReduceFn)
    (order : KeyOrder) (orders : Fin n → KeyOrder) (r : Record) :
    Shared tf route (handleWatermark tf reducer order s r).1
      fun w => (Weibo.handleWatermark tf reducer (orders w) (parts w) r).1 where
  buffers := h.buffers.fireAll_fst reducer (h.mem_closed order orders r.timestamp)
  currentWatermark w := by
    show max (parts w).currentWatermark r.timestamp = max s.currentWatermark r.timestamp
    rw [h.currentWatermark]

/-- What a watermark fires is spread over the workers. -/
theorem handleWatermark_sum (reducer : Option ReduceFn)
    (order : KeyOrder) (orders : Fin n → KeyOrder) (r : Record) :
    ((Weibo.handleWatermark tf reducer order s r).2 : Multiset Record) =
      ∑ w, ((Weibo.handleWatermark tf reducer (orders w) (parts w) r).2 : Multiset Record) :=
  h.buffers.fireAll_sum reducer ((order.nodup_keys _).filter _)
    (fun w => ((orders w).nodup_keys _).filter _) (h.mem_closed order orders r.timestamp)

/-- And so is what is flushed. -/
theorem flushRemaining_sum (reducer : Option ReduceFn)
    (order : KeyOrder) (orders : Fin n → KeyOrder) :
    (flushRemaining tf reducer order s : Multiset Record) =
      ∑ w, (flushRemaining tf reducer (orders w) (parts w) : Multiset Record) :=
  h.buffers.fireAll_sum reducer (order.nodup_keys _) (fun w => (orders w).nodup_keys _)
    (h.buffers.mem_keys order orders)

end Shared

theorem flushRemaining_isMarker (tf : TimeFormat) (reducer : Option ReduceFn) (order : KeyOrder)
    (s : WindowState) : (flushRemaining tf reducer order s).filter isMarker = [] :=
  filter_isMarker_eq_nil (fireAll_isMarker tf reducer _ s.windows)

theorem handleWatermark_isMarker (tf : TimeFormat) (reducer : Option ReduceFn) (order : KeyOrder)
    (s : WindowState) (r : Record) :
    (handleWatermark tf reducer order s r).2.filter isMarker = [] :=
  filter_isMarker_eq_nil (fireAll_isMarker tf reducer _ s.windows)

/-- What the workers make of their lanes is what the single operator makes of the stream, spread
    over them. -/
theorem spread_window (tf : TimeFormat)
    (hsession : assigner.isSession = false) (reducer : Option ReduceFn) (kb : KeyBy)
    {s : WindowState} {parts : Fin kb.partitions → WindowState}
    (h : Shared tf kb.routeKey s parts) (input : List Record) {seq : List Record}
    {os : Fin kb.partitions → List Record}
    (hseq : (windowLoop tf assigner reducer).Completes s (kb.rekeyStream input) seq)
    (hos : ∀ w, (windowLoop tf assigner reducer).Completes (parts w)
      ((kb.router.lane w).outs () input) (os w)) :
    Spread isMarker os seq := by
  induction input generalizing s parts seq os with
  | nil =>
    obtain ⟨order, rfl⟩ := completes_nil hseq
    choose orders hos using fun w => completes_nil (hos w)
    have hspread := Spread.nil.data _ _ (h.flushRemaining_sum reducer order orders)
      (flushRemaining_isMarker tf reducer order s)
    simp only [append_nil] at hspread
    rw [funext hos]
    exact hspread
  | cons r input ih =>
    cases hr : r.isMarker with
    | true =>
      rw [kb.rekeyStream_marker hr] at hseq
      simp only [kb.lane_outs_marker _ hr] at hos
      obtain ⟨order, rest, rfl, hrest⟩ := completes_cons hseq
      choose orders rests hos hrests using fun w => completes_cons (hos w)
      cases hw : r.isWatermark with
      | true =>
        simp only [windowLoop_step_watermark tf assigner reducer _ _ hw] at hrest hos hrests ⊢
        rw [funext hos]
        exact (ih (h.handleWatermark reducer order orders r) hrest hrests).data _ _
          (h.handleWatermark_sum reducer order orders r)
          (handleWatermark_isMarker tf reducer order s r)
      | false =>
        have hcut : r.isCut = true := by
          rw [isMarker, hw, Bool.or_false] at hr
          rw [isCut, hr, hw]
          rfl
        simp only [windowLoop_step_cut tf assigner reducer _ _ hcut] at hrest hos hrests ⊢
        rw [funext hos]
        exact (ih h hrest hrests).marker hr
    | false =>
      -- the record reaches the worker of its key and emits nothing
      have hr' : (kb.rekey r).isMarker = false := hr
      rw [kb.rekeyStream_data hr] at hseq
      obtain ⟨order, rest, rfl, hrest⟩ := completes_cons hseq
      rw [windowLoop_step_data tf assigner reducer _ _ hr'] at hrest ⊢
      have hlane := hos (kb.routeKey (kb.keySelector r))
      rw [kb.lane_outs_data _ hr, if_pos rfl, singleton_append] at hlane
      obtain ⟨order', rest', hout, hrest'⟩ := completes_cons hlane
      rw [windowLoop_step_data tf assigner reducer _ _ hr'] at hrest' hout
      refine ih (h.windowRecord hsession order order' (kb.rekey r)) hrest ?_
      intro w
      by_cases hw : w = kb.routeKey (kb.keySelector r)
      · subst hw
        rw [hout, nil_append]
        show (windowLoop tf assigner reducer).Completes (update parts
          (kb.routeKey (kb.keySelector r)) _ _) _ _
        rw [update_self]
        exact hrest'
      · have hw' := hos w
        rw [kb.lane_outs_data _ hr, if_neg (Ne.symm hw), nil_append] at hw'
        show (windowLoop tf assigner reducer).Completes (update parts
          (kb.routeKey (kb.keySelector r)) _ _) _ _
        rw [update_of_ne hw]
        exact hw'

/-! ## Late records -/

/-- Whether the operator drops a data record. -/
def WindowState.Late (s : WindowState) (r : Record) : Prop :=
  s.currentWatermark ≠ zeroTime ∧ r.timestamp < s.currentWatermark

instance (s : WindowState) (r : Record) : Decidable (s.Late r) :=
  inferInstanceAs (Decidable (_ ∧ _))

/-- All that the loop can do with a record. -/
theorem windowLoop_step_cases (tf : TimeFormat) (assigner : WindowAssigner)
    (reducer : Option ReduceFn) (s : WindowState) (order : KeyOrder) (r : Record) :
    let out := (windowLoop tf assigner reducer).toTransducer.step s (order, r)
    (r.isCut = true ∧ r.isWatermark = false ∧ r.isBarrier = true ∧ r.isData = false ∧
        out = (s, [r])) ∨
      (r.isWatermark = true ∧ out = handleWatermark tf reducer order s r) ∨
      (r.isMarker = false ∧ r.isWatermark = false ∧ r.isBarrier = false ∧ s.Late r ∧
        out = (s, [])) ∨
      (r.isMarker = false ∧ r.isWatermark = false ∧ r.isBarrier = false ∧ ¬ s.Late r ∧
        out = ({ s with windows := handleDataRecord tf assigner order s.windows r }, [])) := by
  rcases r.kind_cases with ⟨hcut, hw, hb, hd⟩ | ⟨hw, -, -⟩ | ⟨hm, hw, hb, -, -⟩
  · exact .inl ⟨hcut, hw, hb, hd, windowLoop_step_cut tf assigner reducer s order hcut⟩
  · exact .inr (.inl ⟨hw, windowLoop_step_watermark tf assigner reducer s order hw⟩)
  · rw [windowLoop_step_data tf assigner reducer s order hm]
    by_cases hlate : s.Late r
    · refine .inr (.inr (.inl ⟨hm, hw, hb, hlate, ?_⟩))
      exact congrArg (·, []) (if_pos hlate)
    · refine .inr (.inr (.inr ⟨hm, hw, hb, hlate, ?_⟩))
      exact congrArg (·, []) (if_neg hlate)

/-- The data records that the loop drops. -/
def lateRecords (tf : TimeFormat) (assigner : WindowAssigner) (reducer : Option ReduceFn) :
    WindowState → List (KeyOrder × Record) → List Record
  | _, [] => []
  | s, x :: xs =>
    (if x.2.isMarker = false ∧ s.Late x.2 then [x.2] else []) ++
      lateRecords tf assigner reducer
        ((windowLoop tf assigner reducer).toTransducer.step s x).1 xs

/-- The data records below the highest watermark ahead of them. -/
def belowWatermark : Int → List Record → List Record
  | _, [] => []
  | wm, r :: rs =>
    if r.isWatermark then belowWatermark (max wm r.timestamp) rs
    else if r.isBarrier then belowWatermark wm rs
    else (if wm ≠ zeroTime ∧ r.timestamp < wm then [r] else []) ++ belowWatermark wm rs

theorem belowWatermark_cons_data (hr : r.isMarker = false) (wm : Int) (rs : List Record) :
    belowWatermark wm (r :: rs) =
      (if wm ≠ zeroTime ∧ r.timestamp < wm then [r] else []) ++ belowWatermark wm rs := by
  obtain ⟨hb, hw⟩ := Bool.or_eq_false_iff.mp hr
  rw [belowWatermark, if_neg (by rw [hw]; decide), if_neg (by rw [hb]; decide)]

/-- The loop drops what is below the highest watermark it has seen. -/
theorem lateRecords_eq (tf : TimeFormat) (assigner : WindowAssigner) (reducer : Option ReduceFn)
    (s : WindowState) (done : List (KeyOrder × Record)) :
    lateRecords tf assigner reducer s done =
      belowWatermark s.currentWatermark (done.map Prod.snd) := by
  induction done generalizing s with
  | nil => rfl
  | cons x done ih =>
    obtain ⟨order, r⟩ := x
    rw [lateRecords, map_cons, ih]
    dsimp only
    rcases windowLoop_step_cases tf assigner reducer s order r with
      ⟨-, hw, hb, hd, hstep⟩ | ⟨hw, hstep⟩ | ⟨hr, -, -, hlate, hstep⟩ | ⟨hr, -, -, hlate, hstep⟩ <;>
      rw [hstep]
    · rw [if_neg fun h => absurd h.1 (by rw [isMarker, hb]; simp), nil_append,
        belowWatermark, if_neg (by rw [hw]; decide), if_pos hb]
    · rw [if_neg fun h => absurd h.1 (by rw [isMarker, hw, Bool.or_true]; decide),
        nil_append, belowWatermark, if_pos hw]
      rfl
    · rw [if_pos ⟨hr, hlate⟩, belowWatermark_cons_data hr]
      exact congrArg (· ++ _) (if_pos hlate).symm
    · rw [if_neg fun h => hlate h.2, belowWatermark_cons_data hr]
      exact congrArg (· ++ _) (if_neg hlate).symm

/-- The records that all workers together drop are those the single operator drops. -/
theorem belowWatermark_sum (kb : KeyBy) (wm : Int) (input : List Record) :
    (belowWatermark wm (kb.rekeyStream input) : Multiset Record) =
      ∑ w, (belowWatermark wm ((kb.router.lane w).outs () input) : Multiset Record) := by
  induction input generalizing wm with
  | nil => simp [KeyBy.rekeyStream, belowWatermark]
  | cons r input ih =>
    cases hr : r.isMarker with
    | true =>
      simp only [kb.rekeyStream_marker hr, kb.lane_outs_marker _ hr, belowWatermark]
      cases hw : r.isWatermark with
      | true => simpa only [if_true] using ih (max wm r.timestamp)
      | false =>
        have hb : r.isBarrier = true := by rwa [isMarker, hw, Bool.or_false] at hr
        simpa only [hb, Bool.false_eq_true, if_false, if_true] using ih wm
    | false =>
      have hr' : (kb.rekey r).isMarker = false := hr
      have hlane : ∀ w, (belowWatermark wm ((kb.router.lane w).outs () (r :: input)) :
            Multiset Record) =
          (if kb.routeKey (kb.keySelector r) = w then
            ((if wm ≠ zeroTime ∧ (kb.rekey r).timestamp < wm then [kb.rekey r] else [] :
              List Record) : Multiset Record) else 0) +
            (belowWatermark wm ((kb.router.lane w).outs () input) : Multiset Record) := by
        intro w
        rw [kb.lane_outs_data w hr]
        by_cases hw : kb.routeKey (kb.keySelector r) = w
        · rw [if_pos hw, if_pos hw, singleton_append, belowWatermark_cons_data hr',
            Multiset.coe_add]
        · rw [if_neg hw, if_neg hw, nil_append, zero_add]
      rw [kb.rekeyStream_data hr, belowWatermark_cons_data hr', ← Multiset.coe_add, ih wm,
        Finset.sum_congr rfl fun w _ => hlane w, Finset.sum_add_distrib, Finset.sum_ite_eq,
        if_pos (Finset.mem_univ _)]

/-! ## Any number of workers -/

/-- A loop gets through every input. -/
theorem OperatorLoop.exists_completes (M : OperatorLoop) (init : M.State) (src : List Record) :
    ∃ dst, M.Completes init src dst := by
  have order : KeyOrder := ⟨id, fun l => Perm.refl l⟩
  refine ⟨_, src.map fun r => (order, r), order, ?_, rfl⟩
  rw [map_map]
  exact map_id _

/-- Only barriers leave the operator as markers. -/
theorem windowLoop_completes_markers {tf : TimeFormat}
    {reducer : Option ReduceFn} {init : WindowState} {src dst : List Record}
    (h : (windowLoop tf assigner reducer).Completes init src dst) :
    dst.filter isMarker = src.filter isCut := by
  obtain ⟨done, order, rfl, rfl⟩ := h
  rw [filter_append, Machine.flush_align, append_nil,
    Machine.outs_align _ isMarker_of_isCut, filter_filter]
  apply filter_congr
  intro r _
  show (!r.isWatermark && (r.isBarrier || r.isWatermark)) = (r.isBarrier && !r.isWatermark)
  cases r.isWatermark <;> cases r.isBarrier <;> rfl

theorem KeyBy.rekeyStream_isCut (kb : KeyBy) (rs : List Record) :
    (kb.rekeyStream rs).filter isCut = rs.filter isCut := by
  induction rs with
  | nil => rfl
  | cons r rs ih =>
    cases hr : r.isMarker with
    | true => rw [kb.rekeyStream_marker hr, filter_cons, filter_cons, ih]
    | false =>
      have hcut : ¬ r.isCut = true := fun hcut =>
        absurd (isMarker_of_isCut r hcut) (by rw [hr]; decide)
      have hcut' : ¬ (kb.rekey r).isCut = true := hcut
      rw [kb.rekeyStream_data hr, filter_cons_of_neg hcut', filter_cons_of_neg hcut, ih]

theorem shared_fresh {n : ℕ} (tf : TimeFormat) (route : Bytes → Fin n) :
    Shared tf route freshWindows fun _ => freshWindows where
  buffers w k := by simp [freshWindows]
  currentWatermark _ := rfl

/-- A keyed stage that aggregates windows. -/
abbrev WindowStage (tf : TimeFormat) (assigner : WindowAssigner) (fn : ReduceFn) (kb : KeyBy) :=
  ParallelStage (windowLoop tf assigner (some fn)) kb.router

namespace ParallelStage

/-- At its end a keyed window stage has emitted what one window operator emits on the stream with
    the selected keys, up to the order between barriers. -/
theorem keyed_window_sequential {tf : TimeFormat} (hsession : assigner.isSession = false)
    {fn : ReduceFn} {kb : KeyBy} {caps : StageCaps kb.partitions} {input : List Record}
    {es : List (Event kb.partitions)} {s : WindowStage tf assigner fn kb}
    (hs : Run.exec step (start caps (fun _ => freshWindows) () input) es = some s)
    (hstuck : Run.Stuck step s) {seq : List Record} (hseq : (windowLoop tf assigner (some
    fn)).Completes freshWindows (kb.rekeyStream input) seq) :
    (∃ k, s.outputs.merge.loop = .returned k) ∧
      SegmentwisePerm isMarker s.outputs.merge.out seq := by
  obtain ⟨hret, os, hos, haligned⟩ := (completes kb.pos caps _ _ _ hs).2 hstuck
  have : Nonempty (Fin kb.partitions) := ⟨⟨0, kb.pos⟩⟩
  exact ⟨hret, (spread_window tf hsession (some fn) kb (shared_fresh tf kb.routeKey) input hseq
    hos).segmentwisePerm haligned⟩

/-- A keyed window stage can always be brought to its end. Then it has emitted the barriers of its
    input and between them, up to the order, the records that a stage with any other number of
    workers emits: the aggregates with their key and window. And the records dropped as late are the
    same. -/
theorem keyed_window_partitions (tf : TimeFormat) (assigner : WindowAssigner)
    (hsession : assigner.isSession = false) (fn : ReduceFn) (kb : KeyBy)
    (caps : StageCaps kb.partitions) (input : List Record) (es : List (Event kb.partitions))
    (s : WindowStage tf assigner fn kb)
    (hs : Run.exec step (start caps (fun _ => freshWindows) () input) es = some s) :
    (∃ es' s', Run.exec step s es' = some s' ∧ Run.Stuck step s') ∧
      (Run.Stuck step s → (∃ k, s.outputs.merge.loop = .returned k) ∧
        s.outputs.merge.out.filter Record.isMarker = input.filter Record.isCut ∧
        ∀ (kb' : KeyBy) (caps' : StageCaps kb'.partitions) (es' : List (Event kb'.partitions))
          (s' : WindowStage tf assigner fn kb'), kb'.keySelector = kb.keySelector →
          Run.exec step (start caps' (fun _ => freshWindows) () input) es' = some s' →
          Run.Stuck step s' →
          SegmentwisePerm Record.isMarker s.outputs.merge.out s'.outputs.merge.out) ∧
      ∀ (kb' : KeyBy) (done : Fin kb.partitions → List (KeyOrder × Record))
        (done' : Fin kb'.partitions → List (KeyOrder × Record)),
        kb'.keySelector = kb.keySelector →
        (∀ w, (done w).map Prod.snd = (kb.router.lane w).outs () input) →
        (∀ w, (done' w).map Prod.snd = (kb'.router.lane w).outs () input) →
        ∑ w, (lateRecords tf assigner (some fn) freshWindows (done w) : Multiset Record) =
          ∑ w, (lateRecords tf assigner (some fn) freshWindows (done' w) : Multiset Record) := by
  have hstream : ∀ kb' : KeyBy, kb'.keySelector = kb.keySelector →
      kb'.rekeyStream input = kb.rekeyStream input := by
    intro kb' hkb'
    simp only [KeyBy.rekeyStream, KeyBy.rekey, hkb']
  obtain ⟨seq, hseq⟩ := OperatorLoop.exists_completes (windowLoop tf assigner (some fn))
    freshWindows (kb.rekeyStream input)
  refine ⟨(completes kb.pos caps _ _ _ hs).1, fun hstuck => ?_, ?_⟩
  · obtain ⟨hret, hperm⟩ := keyed_window_sequential hsession hs hstuck hseq
    refine ⟨hret, ?_, ?_⟩
    · rw [hperm.aligned, windowLoop_completes_markers hseq, kb.rekeyStream_isCut]
    · intro kb' caps' es' s' hkb' hs' hstuck'
      rw [← hstream kb' hkb'] at hseq
      exact hperm.trans_symm (keyed_window_sequential hsession hs' hstuck' hseq).2
  · intro kb' done done' hkb' hdone hdone'
    simp only [lateRecords_eq, hdone, hdone', ← belowWatermark_sum, hstream kb' hkb']

/-- Two keys in windows of ten, with a watermark, a late record and a barrier. -/
def windowedKeys : List Record :=
  [{ key := [0], timestamp := 3 }, { key := [1], timestamp := 8 }, .newWatermark 12,
    { key := [0], timestamp := 4 }, .newBarrier "1", { key := [1], timestamp := 15 }]

/-- Two workers and five workers. -/
theorem keyed_window_partitions_tumbling :
    ∃ (es : List (Event 2)) (es' : List (Event 5))
      (s : WindowStage CutRun.unaryFormat (tumbling 10 0) (fun accum _ => some (1 :: accum.getD []))
        ⟨Record.key, 2, by decide⟩)
      (s' : WindowStage CutRun.unaryFormat (tumbling 10 0) (fun accum _ => some (1 :: accum.getD []))
        ⟨Record.key, 5, by decide⟩),
      Run.exec step (start ⟨⟨fun _ => 1, 1, 1⟩, fun _ => 1⟩ (fun _ => freshWindows) ()
        windowedKeys) es = some s ∧
      Run.exec step (start ⟨⟨fun _ => 0, 0, 0⟩, fun _ => 0⟩ (fun _ => freshWindows) ()
        windowedKeys) es' = some s' ∧
      Run.Stuck step s ∧ Run.Stuck step s' ∧
      s.outputs.merge.out.filter Record.isMarker = [.newBarrier "1"] ∧
      SegmentwisePerm Record.isMarker s.outputs.merge.out s'.outputs.merge.out := by
  obtain ⟨⟨es, s, hs, hstuck⟩, -⟩ := keyed_window_partitions CutRun.unaryFormat (tumbling 10 0) rfl
    (fun accum _ => some (1 :: accum.getD [])) ⟨Record.key, 2, by decide⟩
    ⟨⟨fun _ => 1, 1, 1⟩, fun _ => 1⟩ windowedKeys [] _ rfl
  obtain ⟨⟨es', s', hs', hstuck'⟩, -⟩ := keyed_window_partitions CutRun.unaryFormat (tumbling 10 0) rfl
    (fun accum _ => some (1 :: accum.getD [])) ⟨Record.key, 5, by decide⟩
    ⟨⟨fun _ => 0, 0, 0⟩, fun _ => 0⟩ windowedKeys [] _ rfl
  obtain ⟨-, hend, -⟩ := keyed_window_partitions CutRun.unaryFormat (tumbling 10 0) rfl _ _ _ _ es s hs
  obtain ⟨-, hmarkers, hperm⟩ := hend hstuck
  exact ⟨es, es', s, s', hs, hs', hstuck, hstuck', hmarkers, hperm _ _ es' s' rfl hs' hstuck'⟩

end ParallelStage

end Weibo
