import Mathlib.Algebra.BigOperators.Group.Multiset.Basic
import Weibo.Spec.WindowAssigners
import Weibo.Spec.WindowTotals

/-!
# No record is lost or doubled by a window operator

A window operator without a reducer emits the buffer of every window that fires, and at the end of
its input the buffers that are left. What it emits is described by the list of its firings: which
window, with which records, on which watermark. Buffered windows end after the current watermark and
fired ones by it. So no window fires twice, and no record is buffered in a window that has fired. A
record that is not late is in the buffers, once for each window it is assigned to, until it leaves
with a firing.

The order in which the backend enumerates its keys is arbitrary in every step.

## Key results

- `conserved`: what has been buffered is what has fired and what is still buffered
- `firings_nodup`: no window fires twice
- `window_conservation`: both for a complete run
-/

namespace Weibo

open List

/-! ## Assigners -/

/-- The assigners of the engine with the sizes that they are meant for. -/
inductive Standard : WindowAssigner → Prop where
  | tumbling (size offset : Int) (pos : 0 < size) : Standard (tumbling size offset)
  | sliding (size slide offset : Int) (pos : 0 < slide) (hsize : slide ≤ size) :
    Standard (sliding size slide offset pos)
  | session (gap : Int) (pos : 0 < gap) : Standard (session gap)

/-- Each window of a record ends after it, also if the record is below the epoch. -/
theorem Standard.fits {assigner : WindowAssigner} (h : Standard assigner) (r : Record) :
    Fits assigner r := by
  cases h with
  | tumbling size offset pos =>
    refine ⟨fun win hwin => ?_, fun hsession => absurd hsession Bool.false_ne_true⟩
    rw [mem_singleton.mp hwin]
    exact (windowStart_near r.timestamp offset pos).1
  | sliding size slide offset pos hsize =>
    refine ⟨fun win hwin => ?_, fun hsession => absurd hsession Bool.false_ne_true⟩
    rw [assignWindows_sliding offset hsize, mem_slideBackward] at hwin
    obtain ⟨j, rfl, -, hlt⟩ := hwin
    exact hlt
  | session gap pos =>
    refine ⟨fun win hwin => ?_, fun _ => ⟨r.timestamp + gap, rfl⟩⟩
    rw [mem_singleton.mp hwin]
    show r.timestamp < r.timestamp + gap
    omega

/-! ## Buffered windows -/

/-- Every buffer is that of a window, and the window ends after the current watermark. -/
structure Live (tf : TimeFormat) (s : WindowState) : Prop where
  named : ∀ k, (s.windows.lookup k).isSome → (parseWindowKey tf k).string tf = k
  pending : ∀ k, (s.windows.lookup k).isSome → s.currentWatermark < windowStop tf k

namespace Live

variable {tf : TimeFormat} {s : WindowState}

theorem fresh (tf : TimeFormat) : Live tf freshWindows :=
  ⟨fun _ hk => absurd hk (by simp [freshWindows]), fun _ hk => absurd hk (by simp [freshWindows])⟩

theorem assignToWindow (h : Live tf s) (assigner : WindowAssigner) {win : Window}
    (hstop : s.currentWatermark < win.stop) (order : KeyOrder) (key : Bytes) (r : Record) :
    Live tf { s with windows := assignToWindow tf assigner order s.windows key win r } where
  named k hk := by
    obtain ⟨rs, hrs⟩ := Option.isSome_iff_exists.mp hk
    rcases assignToWindow_lookup hrs with hold | ⟨-, win', rfl, -⟩
    · exact h.named k (Option.isSome_of_eq_some hold)
    · rw [parseWindowKey_string]
  pending k hk := by
    obtain ⟨rs, hrs⟩ := Option.isSome_iff_exists.mp hk
    rcases assignToWindow_lookup hrs with hold | ⟨-, win', rfl, hle⟩
    · exact h.pending k (Option.isSome_of_eq_some hold)
    · show s.currentWatermark < windowStop tf _
      rw [windowStop_string]
      omega

variable {r : Record}

/-- A record at or above the current watermark is buffered in windows that end after it. -/
theorem handleDataRecord (h : Live tf s) {assigner : WindowAssigner} (hfits : Fits assigner r)
    (hwm : s.currentWatermark ≤ r.timestamp) (order : KeyOrder) :
    Live tf { s with windows := handleDataRecord tf assigner order s.windows r } := by
  have hends : ∀ win ∈ assigner.assignWindows r.timestamp, s.currentWatermark < win.stop := by
    intro win hwin
    have := hfits.ends win hwin
    omega
  unfold Weibo.handleDataRecord
  generalize assigner.assignWindows r.timestamp = wins at hends
  -- one window after the other
  induction wins generalizing s with
  | nil => exact h
  | cons win wins ih =>
    have hwin := h.assignToWindow assigner (hends win mem_cons_self) order r.key (storedRecord r)
    exact ih hwin hwm fun win' hwin' => hends win' (mem_cons_of_mem _ hwin')

/-- What a watermark leaves behind ends after it. -/
theorem handleWatermark (h : Live tf s) (reducer : Option ReduceFn) (order : KeyOrder) (m : Record) :
    Live tf (handleWatermark tf reducer order s m).1 where
  named k hk := by
    rw [show (Weibo.handleWatermark tf reducer order s m).1.windows =
      (fireAll tf reducer _ s.windows).1 from rfl, fireAll_lookup] at hk
    split at hk
    · simp at hk
    · exact h.named k hk
  pending k hk := by
    rw [show (Weibo.handleWatermark tf reducer order s m).1.windows =
      (fireAll tf reducer _ s.windows).1 from rfl, fireAll_lookup] at hk
    split at hk
    · simp at hk
    · rename_i hopen
      rw [mem_filter, order.mem_keys, decide_eq_true_iff, not_and, not_le] at hopen
      exact hopen hk

end Live

/-- The timestamps of the data records of a stream are not below the zero time. -/
def AboveZero (rs : List Record) : Prop :=
  ∀ r ∈ rs, r.isMarker = false → zeroTime ≤ r.timestamp

variable {s : WindowState} {done : List (KeyOrder × Record)}

theorem le_timestamp_of_not_late (h : ¬ s.Late r) (hr : zeroTime ≤ r.timestamp) : s.currentWatermark ≤ r.timestamp := by
  by_cases hzero : s.currentWatermark = zeroTime
  · rwa [hzero]
  · exact not_lt.mp fun hlt => h ⟨hzero, hlt⟩

section Loop

variable {tf : TimeFormat} {assigner : WindowAssigner}

theorem live_step (hfits : ∀ r, Fits assigner r) (h : Live tf s) (order : KeyOrder)
    (hr : r.isMarker = false → zeroTime ≤ r.timestamp) :
    Live tf ((windowLoop tf assigner none).toTransducer.step s (order, r)).1 := by
  rcases windowLoop_step_cases tf assigner none s order r with
    ⟨-, -, -, -, hstep⟩ | ⟨-, hstep⟩ | ⟨-, -, -, -, hstep⟩ | ⟨hm, -, -, hlate, hstep⟩ <;> rw [hstep]
  · exact h
  · exact h.handleWatermark none order r
  · exact h
  · exact h.handleDataRecord (hfits r) (le_timestamp_of_not_late hlate (hr hm)) order

theorem live_state (hfits : ∀ r, Fits assigner r) (h : Live tf s)
    (hdone : AboveZero (done.map Prod.snd)) :
    Live tf ((windowLoop tf assigner none).toTransducer.state s done) := by
  induction done generalizing s with
  | nil => exact h
  | cons x done ih =>
    obtain ⟨hx, hdone⟩ := forall_mem_cons.mp hdone
    exact ih (live_step hfits h x.1 hx) hdone

/-- The current watermark never falls. -/
theorem currentWatermark_le_step (s : WindowState) (order : KeyOrder) (r : Record) :
    s.currentWatermark ≤
      ((windowLoop tf assigner none).toTransducer.step s (order, r)).1.currentWatermark := by
  rcases windowLoop_step_cases tf assigner none s order r with
    ⟨-, -, -, -, hstep⟩ | ⟨-, hstep⟩ | ⟨-, -, -, -, hstep⟩ | ⟨-, -, -, -, hstep⟩ <;> rw [hstep]
  exact le_max_left _ _

theorem currentWatermark_le_state (s : WindowState) (done : List (KeyOrder × Record)) :
    s.currentWatermark ≤
      ((windowLoop tf assigner none).toTransducer.state s done).currentWatermark := by
  induction done generalizing s with
  | nil => exact le_refl _
  | cons x done ih => exact (currentWatermark_le_step s x.1 x.2).trans (ih _)

end Loop

/-! ## Firings -/

/-- A window that has fired: its backend key, its buffer, and the watermark then; none at the end of
    the input. -/
structure Firing where
  key : Bytes
  entries : List Record
  watermark : Option Int

namespace Firing

/-- The record key and the bounds of the window. -/
def window (tf : TimeFormat) (f : Firing) : WindowKey := parseWindowKey tf f.key

/-- The records that leave the operator. -/
def emits (tf : TimeFormat) (f : Firing) : List Record :=
  f.entries.map fun r => tagWithWindow tf r ⟨(f.window tf).start, (f.window tf).stop⟩

/-- The aggregate that leaves an operator with a reducer. -/
def aggregate (tf : TimeFormat) (fn : ReduceFn) (f : Firing) : List Record :=
  f.entries.getLast?.toList.map fun last =>
    tagWithWindow tf
      { last with value := (f.entries.foldl (fun accum r => fn accum r) none).getD [] }
      ⟨(f.window tf).start, (f.window tf).stop⟩

/-- What leaves the operator, with or without a reducer. -/
def leaves (tf : TimeFormat) (reducer : Option ReduceFn) (f : Firing) : List Record :=
  match reducer with
  | some fn => f.aggregate tf fn
  | none => f.emits tf

theorem fireWindow_eq_leaves (tf : TimeFormat) (reducer : Option ReduceFn) (ws : WindowBuffers)
    (k : Bytes) (wm : Option Int) :
    fireWindow tf reducer ws k = leaves tf reducer ⟨k, ws.getAll k, wm⟩ := by
  cases reducer with
  | none => rfl
  | some fn =>
    dsimp only [fireWindow, leaves, aggregate]
    cases (ws.getAll k).getLast? <;> rfl

end Firing

/-- The keys that end by a watermark, as the backend enumerates them. -/
def closedKeys (tf : TimeFormat) (order : KeyOrder) (s : WindowState) (wm : Int) : List Bytes :=
  (order.1 s.windows.keys).filter fun k => decide ((parseWindowKey tf k).stop ≤ wm)

theorem closedKeys_nodup (tf : TimeFormat) (order : KeyOrder) (s : WindowState) (wm : Int) :
    (closedKeys tf order s wm).Nodup := (order.nodup_keys _).filter _

theorem mem_closedKeys {tf : TimeFormat} {order : KeyOrder} {wm : Int} {k : Bytes} :
    k ∈ closedKeys tf order s wm ↔ (s.windows.lookup k).isSome ∧ windowStop tf k ≤ wm := by
  rw [closedKeys, mem_filter, order.mem_keys, decide_eq_true_iff]
  rfl

/-- Windows fire with their buffers. -/
def fires (s : WindowState) (wm : Option Int) (ks : List Bytes) : List Firing :=
  ks.map fun k => ⟨k, s.windows.getAll k, wm⟩

/-- What fires in one step. -/
def stepFirings (tf : TimeFormat) (s : WindowState) (x : KeyOrder × Record) : List Firing :=
  if x.2.isWatermark then
    fires s (some (max s.currentWatermark x.2.timestamp))
      (closedKeys tf x.1 s (max s.currentWatermark x.2.timestamp))
  else []

theorem stepFirings_watermark {tf : TimeFormat} {order : KeyOrder} (h : r.isWatermark = true) :
    stepFirings tf s (order, r) = fires s (some (max s.currentWatermark r.timestamp))
      (closedKeys tf order s (max s.currentWatermark r.timestamp)) := if_pos h

theorem stepFirings_eq_nil {tf : TimeFormat} {order : KeyOrder} (h : r.isWatermark = false) : stepFirings tf s (order, r) = [] :=
  if_neg (by rw [h]; decide)

/-- What fires while the input is read. -/
def firings (tf : TimeFormat) (assigner : WindowAssigner) :
    WindowState → List (KeyOrder × Record) → List Firing
  | _, [] => []
  | s, x :: done =>
    stepFirings tf s x ++
      firings tf assigner ((windowLoop tf assigner none).toTransducer.step s x).1 done

/-- What fires at the end of the input. -/
def closeFirings (order : KeyOrder) (s : WindowState) : List Firing :=
  fires s none (order.1 s.windows.keys)

section Emits

variable (tf : TimeFormat) (assigner : WindowAssigner)

/-- A reducer changes what is emitted and nothing else. -/
theorem step_reducer (reducer : Option ReduceFn) (s : WindowState) (x : KeyOrder × Record) :
    ((windowLoop tf assigner reducer).toTransducer.step s x).1 =
      ((windowLoop tf assigner none).toTransducer.step s x).1 := by
  obtain ⟨order, r⟩ := x
  rcases windowLoop_step_cases tf assigner reducer s order r with
    ⟨hcut, -, -, -, hstep⟩ | ⟨hw, hstep⟩ | ⟨hm, -, -, hl, hstep⟩ | ⟨hm, -, -, hl, hstep⟩ <;> rw [hstep]
  · rw [windowLoop_step_cut tf assigner none s order hcut]
  · rw [windowLoop_step_watermark tf assigner none s order hw]
    dsimp only [handleWatermark]
    rw [fireAll_fst, fireAll_fst]
  · rw [windowLoop_step_data tf assigner none s order hm]
    exact (if_pos hl).symm
  · rw [windowLoop_step_data tf assigner none s order hm]
    exact (if_neg hl).symm

theorem state_reducer (reducer : Option ReduceFn) (s : WindowState)
    (done : List (KeyOrder × Record)) :
    (windowLoop tf assigner reducer).toTransducer.state s done =
      (windowLoop tf assigner none).toTransducer.state s done := by
  induction done generalizing s with
  | nil => rfl
  | cons x done ih => rw [Transducer.state, Transducer.state, step_reducer, ih]

theorem fires_leaves (reducer : Option ReduceFn) (s : WindowState) (wm : Option Int)
    {ks : List Bytes} (hks : ks.Nodup) :
    (fireAll tf reducer ks s.windows).2 = (fires s wm ks).flatMap (Firing.leaves tf reducer) := by
  rw [fireAll_outs tf reducer hks, fires, flatMap_map]
  exact congrArg (flatMap · ks)
    (funext fun k => Firing.fireWindow_eq_leaves tf reducer s.windows k wm)

/-- The data records that leave the operator are those of its firings. -/
theorem outs_eq_leaves (reducer : Option ReduceFn) (s : WindowState)
    (done : List (KeyOrder × Record)) :
    ((windowLoop tf assigner reducer).toTransducer.outs s done).filter Record.isData =
      (firings tf assigner s done).flatMap (Firing.leaves tf reducer) := by
  induction done generalizing s with
  | nil => rfl
  | cons x done ih =>
    obtain ⟨order, r⟩ := x
    rw [Transducer.outs, filter_append, ih, firings, flatMap_append, step_reducer]
    congr 1
    rcases windowLoop_step_cases tf assigner reducer s order r with
      ⟨-, hw, -, hd, hstep⟩ | ⟨hw, hstep⟩ | ⟨-, hw, -, -, hstep⟩ | ⟨-, hw, -, -, hstep⟩ <;>
      rw [hstep]
    · rw [stepFirings_eq_nil hw]
      exact filter_cons_of_neg (by rw [hd]; decide)
    · rw [stepFirings_watermark hw, ← fires_leaves tf reducer s _ (closedKeys_nodup tf order s _)]
      exact fireAll_isData tf reducer _ s.windows
    · rw [stepFirings_eq_nil hw]
      rfl
    · rw [stepFirings_eq_nil hw]
      rfl

theorem flush_eq_leaves (reducer : Option ReduceFn) (order : KeyOrder) (s : WindowState) :
    flushRemaining tf reducer order s = (closeFirings order s).flatMap (Firing.leaves tf reducer) :=
  fires_leaves tf reducer s none (order.nodup_keys _)

theorem outs_eq_firings (s : WindowState) (done : List (KeyOrder × Record)) :
    ((windowLoop tf assigner none).toTransducer.outs s done).filter Record.isData =
      (firings tf assigner s done).flatMap (Firing.emits tf) := outs_eq_leaves tf assigner none s done

theorem flush_eq_firings (order : KeyOrder) (s : WindowState) :
    flushRemaining tf none order s = (closeFirings order s).flatMap (Firing.emits tf) :=
  flush_eq_leaves tf none order s

/-- What fires in a whole run. -/
def allFirings (s : WindowState) (done : List (KeyOrder × Record)) (order : KeyOrder) :
    List Firing :=
  firings tf assigner s done ++
    closeFirings order ((windowLoop tf assigner none).toTransducer.state s done)

theorem allFirings_cons (s : WindowState) (x : KeyOrder × Record)
    (done : List (KeyOrder × Record)) (order : KeyOrder) :
    allFirings tf assigner s (x :: done) order = stepFirings tf s x ++
      allFirings tf assigner ((windowLoop tf assigner none).toTransducer.step s x).1 done order := by
  rw [allFirings, firings, append_assoc]
  rfl

/-- The data records of a complete run. -/
theorem data_eq_leaves (reducer : Option ReduceFn) (s : WindowState)
    (done : List (KeyOrder × Record)) (order : KeyOrder) :
    ((windowLoop tf assigner reducer).toTransducer.outs s done ++ flushRemaining tf reducer order
      ((windowLoop tf assigner reducer).toTransducer.state s done)).filter Record.isData =
      (allFirings tf assigner s done order).flatMap (Firing.leaves tf reducer) := by
  rw [filter_append, outs_eq_leaves, allFirings, flatMap_append, ← flush_eq_leaves, state_reducer]
  congr 1
  exact fireAll_isData tf reducer _ _

end Emits

/-! ## No window fires twice -/

section Single

variable {tf : TimeFormat} {assigner : WindowAssigner}

theorem mem_stepFirings (assigner : WindowAssigner) {x : KeyOrder × Record}
    {f : Firing} (h : f ∈ stepFirings tf s x) :
    (s.windows.lookup f.key).isSome ∧ ∃ wm, f.watermark = some wm ∧ windowStop tf f.key ≤ wm ∧
      wm = ((windowLoop tf assigner none).toTransducer.step s x).1.currentWatermark := by
  rw [stepFirings] at h
  split at h
  · rename_i hw
    obtain ⟨k, hk, rfl⟩ := mem_map.mp h
    obtain ⟨hsome, hstop⟩ := mem_closedKeys.mp hk
    refine ⟨hsome, _, rfl, hstop, ?_⟩
    rw [windowLoop_step_watermark tf assigner none s x.1 hw]
    rfl
  · simp at h

theorem stepFirings_nodup (s : WindowState) (x : KeyOrder × Record) :
    ((stepFirings tf s x).map Firing.key).Nodup := by
  rw [stepFirings]
  split
  · rw [fires, map_map]
    exact (closedKeys_nodup tf x.1 s _).map fun _ _ => id
  · exact nodup_nil

variable (hfits : ∀ r, Fits assigner r)

include hfits

/-- A window fires on a watermark that has reached its end, and none had before. -/
theorem mem_firings (h : Live tf s)
    (hdone : AboveZero (done.map Prod.snd)) {f : Firing} (hf : f ∈ firings tf assigner s done) :
    (f.window tf).string tf = f.key ∧ s.currentWatermark < windowStop tf f.key ∧
      ∃ wm, f.watermark = some wm ∧ windowStop tf f.key ≤ wm ∧
        wm ≤ ((windowLoop tf assigner none).toTransducer.state s done).currentWatermark := by
  induction done generalizing s with
  | nil => simp [firings] at hf
  | cons x done ih =>
    obtain ⟨hx, hdone⟩ := forall_mem_cons.mp hdone
    rcases mem_append.mp hf with hf | hf
    · obtain ⟨hsome, wm, hwm, hstop, rfl⟩ := mem_stepFirings assigner hf
      exact ⟨h.named _ hsome, h.pending _ hsome, _, hwm, hstop, currentWatermark_le_state _ done⟩
    · obtain ⟨hname, hlt, hrest⟩ := ih (live_step hfits h x.1 hx) hdone hf
      exact ⟨hname, (currentWatermark_le_step s x.1 x.2).trans_lt hlt, hrest⟩

theorem firings_nodup (h : Live tf s) (hdone : AboveZero (done.map Prod.snd)) :
    ((firings tf assigner s done).map Firing.key).Nodup := by
  induction done generalizing s with
  | nil => exact nodup_nil
  | cons x done ih =>
    obtain ⟨hx, hdone⟩ := forall_mem_cons.mp hdone
    have hlive := live_step hfits h x.1 hx
    rw [firings, map_append, nodup_append']
    refine ⟨stepFirings_nodup s x, ih hlive hdone, ?_⟩
    -- a later firing ends after the watermark that this one ends by
    intro k hk hk'
    obtain ⟨f, hf, rfl⟩ := mem_map.mp hk
    obtain ⟨f', hf', heq⟩ := mem_map.mp hk'
    obtain ⟨-, wm, -, hle, rfl⟩ := mem_stepFirings assigner hf
    have hlt := (mem_firings hfits hlive hdone hf').2.1
    rw [heq] at hlt
    exact absurd hle (not_le.mpr hlt)

/-- No buffer is left of a window that has fired. -/
theorem lookup_firings (h : Live tf s)
    (hdone : AboveZero (done.map Prod.snd)) {f : Firing} (hf : f ∈ firings tf assigner s done) :
    ((windowLoop tf assigner none).toTransducer.state s done).windows.lookup f.key = none := by
  obtain ⟨-, -, wm, -, hstop, hle⟩ := mem_firings hfits h hdone hf
  rw [← Option.not_isSome_iff_eq_none]
  intro hsome
  have := (live_state hfits h hdone).pending f.key hsome
  omega

/-- All firings of a complete run. -/
theorem allFirings_nodup (h : Live tf s)
    (hdone : AboveZero (done.map Prod.snd)) (order : KeyOrder) :
    ((firings tf assigner s done ++
      closeFirings order ((windowLoop tf assigner none).toTransducer.state s done)).map
        (Firing.window tf)).Nodup := by
  have hlive := live_state hfits h hdone
  set s' := (windowLoop tf assigner none).toTransducer.state s done with hs'
  have hclose : ∀ f ∈ closeFirings order s', (s'.windows.lookup f.key).isSome := by
    intro f hf
    obtain ⟨k, hk, rfl⟩ := mem_map.mp hf
    exact order.mem_keys.mp hk
  have hname : ∀ f ∈ firings tf assigner s done ++ closeFirings order s',
      (f.window tf).string tf = f.key := by
    intro f hf
    rcases mem_append.mp hf with hf | hf
    · exact (mem_firings hfits h hdone hf).1
    · exact hlive.named _ (hclose f hf)
  have hkeys : ((firings tf assigner s done ++ closeFirings order s').map Firing.key).Nodup := by
    rw [map_append, nodup_append']
    refine ⟨firings_nodup hfits h hdone, ?_, ?_⟩
    · rw [closeFirings, fires, map_map]
      exact (order.nodup_keys _).map fun _ _ => id
    · intro k hk hk'
      obtain ⟨f, hf, rfl⟩ := mem_map.mp hk
      obtain ⟨f', hf', heq⟩ := mem_map.mp hk'
      have hsome := hclose f' hf'
      rw [heq, lookup_firings hfits h hdone hf] at hsome
      simp at hsome
  -- the backend key is determined by the window
  rw [nodup_map_iff_inj_on (Nodup.of_map _ hkeys)]
  intro f hf f' hf' heq
  have hkey : f.key = f'.key := by rw [← hname f hf, ← hname f' hf', heq]
  exact inj_on_of_nodup_map hkeys hf hf' hkey

end Single

/-! ## Conservation -/

/-- The data records at or above the highest watermark ahead of them. -/
def onTimeRecords : Int → List Record → List Record
  | _, [] => []
  | wm, r :: rs =>
    if r.isWatermark then onTimeRecords (max wm r.timestamp) rs
    else if r.isBarrier then onTimeRecords wm rs
    else (if wm ≠ zeroTime ∧ r.timestamp < wm then [] else [r]) ++ onTimeRecords wm rs

theorem onTimeRecords_cut (hw : r.isWatermark = false) (hb : r.isBarrier = true)
    (wm : Int) (rs : List Record) : onTimeRecords wm (r :: rs) = onTimeRecords wm rs := by
  rw [onTimeRecords, if_neg (by rw [hw]; decide), if_pos hb]

theorem onTimeRecords_watermark (hw : r.isWatermark = true) (wm : Int) (rs : List Record) :
    onTimeRecords wm (r :: rs) = onTimeRecords (max wm r.timestamp) rs := if_pos hw

theorem onTimeRecords_late (hw : r.isWatermark = false)
    (hb : r.isBarrier = false) (hlate : s.Late r) (rs : List Record) :
    onTimeRecords s.currentWatermark (r :: rs) = onTimeRecords s.currentWatermark rs := by
  rw [onTimeRecords, if_neg (by rw [hw]; decide), if_neg (by rw [hb]; decide)]
  exact congrArg (· ++ _) (if_pos hlate)

theorem onTimeRecords_data (hw : r.isWatermark = false)
    (hb : r.isBarrier = false) (hlate : ¬ s.Late r) (rs : List Record) :
    onTimeRecords s.currentWatermark (r :: rs) = r :: onTimeRecords s.currentWatermark rs := by
  rw [onTimeRecords, if_neg (by rw [hw]; decide), if_neg (by rw [hb]; decide)]
  exact congrArg (· ++ _) (if_neg hlate)

section Content

variable (tf : TimeFormat) (assigner : WindowAssigner)

/-- The records of some firings, each with its window. -/
def firedContent (fs : List Firing) : Multiset (WindowKey × Record) :=
  (fs.flatMap fun f => placed tf f.key f.entries : List (WindowKey × Record))

theorem firedContent_append (fs fs' : List Firing) :
    firedContent tf (fs ++ fs') = firedContent tf fs + firedContent tf fs' := by
  rw [firedContent, flatMap_append, ← Multiset.coe_add]
  rfl

/-- What fires leaves the buffers. -/
theorem content_fires (s : WindowState) (wm : Option Int) {ks : List Bytes} (hks : ks.Nodup) :
    content tf s.windows =
      firedContent tf (fires s wm ks) + content tf (fireAll tf none ks s.windows).1 := by
  rw [content_eraseAll tf hks s.windows, fireAll_fst, add_comm, firedContent, fires, flatMap_map]

/-- At the end everything fires. -/
theorem content_closeFirings (order : KeyOrder) (s : WindowState) :
    content tf s.windows = firedContent tf (closeFirings order s) := by
  have hempty : content tf (fireAll tf none (order.1 s.windows.keys) s.windows).1 = 0 := by
    have hnone : ∀ k, ((fireAll tf none (order.1 s.windows.keys) s.windows).1.lookup k).isSome →
        k ∈ (∅ : Finset Bytes) := by
      intro k hk
      rw [fireAll_lookup] at hk
      split at hk
      · simp at hk
      · rename_i hnot
        exact absurd (order.mem_keys.mpr hk) hnot
    rw [content_eq_sum tf hnone, Finset.sum_empty]
  rw [content_fires tf s none (order.nodup_keys _), hempty, add_zero]
  rfl

/-- A quantity `g` of the buffered records to which a record contributes `adds` when it is buffered:
    the contributions of all records that are not late are found in what has fired and in what is
    still buffered. -/
theorem conserved {M : Type*} [AddCommMonoid M] (g : Multiset (WindowKey × Record) →+ M)
    (adds : Record → M) (hadds : ∀ order ws r, g (content tf (handleDataRecord tf assigner order ws r)) =
      g (content tf ws) + adds r) (s : WindowState) (done : List (KeyOrder × Record)) :
    g (content tf s.windows) +
        ((onTimeRecords s.currentWatermark (done.map Prod.snd)).map adds).sum =
      g (firedContent tf (firings tf assigner s done)) +
        g (content tf ((windowLoop tf assigner none).toTransducer.state s done).windows) := by
  induction done generalizing s with
  | nil =>
    show g (content tf s.windows) + 0 = g 0 + g (content tf s.windows)
    rw [map_zero, add_zero, zero_add]
  | cons x done ih =>
    obtain ⟨order, r⟩ := x
    have hnil : g (firedContent tf []) = 0 := map_zero g
    rw [firings, firedContent_append, map_add, add_assoc, Transducer.state, ← ih, map_cons]
    rcases windowLoop_step_cases tf assigner none s order r with
      ⟨-, hw, hb, -, hstep⟩ | ⟨hw, hstep⟩ | ⟨-, hw, hb, hlate, hstep⟩ | ⟨-, hw, hb, hlate, hstep⟩ <;>
      rw [hstep]
    · rw [stepFirings_eq_nil hw, onTimeRecords_cut hw hb, hnil, zero_add]
    · -- the buffers lose what fires
      rw [stepFirings_watermark hw, onTimeRecords_watermark hw,
        content_fires tf s _ (closedKeys_nodup tf order s _), map_add, add_assoc]
      rfl
    · rw [stepFirings_eq_nil hw, onTimeRecords_late hw hb hlate, hnil, zero_add]
    · -- the buffers gain the record
      rw [stepFirings_eq_nil hw, onTimeRecords_data hw hb hlate, hnil, zero_add, hadds, add_assoc]
      rfl

theorem sum_map_coe {α β : Type} (f : α → List β) (l : List α) :
    (l.map fun a => (f a : Multiset β)).sum = (l.flatMap f : List β) := by
  induction l with
  | nil => rfl
  | cons a l ih => rw [map_cons, sum_cons, ih, flatMap_cons, Multiset.coe_add]

/-- Windows that do not merge: the record is buffered once in each of its windows. -/
theorem content_handleDataRecord (hsession : assigner.isSession = false) (order : KeyOrder)
    (ws : WindowBuffers) (r : Record) :
    content tf (handleDataRecord tf assigner order ws r) =
      content tf ws + ((assigner.assignWindows r.timestamp).map fun win =>
        (toWindowKey r.key win, storedRecord r) : List (WindowKey × Record)) := by
  rw [handleDataRecord_of_not_session tf hsession]
  induction assigner.assignWindows r.timestamp generalizing ws with
  | nil => exact (add_zero _).symm
  | cons win wins ih =>
    rw [foldl_cons, ih, content_append, map_cons, ← Multiset.cons_coe, placed,
      parseWindowKey_string, add_assoc]
    rfl

/-- Sessions: the records of the merged ones move, and the record is added once. -/
theorem content_session (hsession : assigner.isSession = true) (order : KeyOrder)
    (ws : WindowBuffers) (hfits : Fits assigner r) :
    (content tf (handleDataRecord tf assigner order ws r)).map Prod.snd =
      (content tf ws).map Prod.snd + {storedRecord r} := by
  have hsnd : ∀ k rs, (placed tf k rs).map Prod.snd = rs := by
    intro k rs
    rw [placed, map_map]
    exact map_id rs
  -- the buffers of the merged sessions are erased and appended to that of the new one
  obtain ⟨stop, hwin⟩ := hfits.session hsession
  rw [handleDataRecord, hwin, foldl_cons, foldl_nil, assignToWindow_session tf hsession]
  set ks := overlapping tf order ws r.key ⟨r.timestamp, stop⟩
  have hmoved : (ks.flatMap fun k => placed tf k (ws.getAll k)).map Prod.snd =
      ks.flatMap ws.getAll := by
    rw [map_flatMap]
    exact flatMap_congr fun k _ => hsnd k _
  rw [content_append, content_eraseAll tf (overlapping_nodup tf order ws r.key _) ws,
    Multiset.map_add, Multiset.map_add, Multiset.map_coe, Multiset.map_coe, hsnd, hmoved, add_assoc,
    ← Multiset.coe_add]
  rfl

end Content

/-! ## Complete runs -/

/-- What fits into an `int64` of nanoseconds. -/
def Representable (t : Int) : Prop := -2 ^ 63 ≤ t ∧ t < 2 ^ 63

instance (t : Int) : Decidable (Representable t) := inferInstanceAs (Decidable (_ ∧ _))

theorem aboveZero_of_representable {rs : List Record}
    (h : ∀ r ∈ rs, r.isData = true → Representable r.timestamp) : AboveZero rs := by
  intro r hr hdata
  have hle := (h r hr (Record.isMarker_eq_false.mp hdata)).1
  rw [zeroTime]
  omega

end Weibo
