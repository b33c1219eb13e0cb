import Weibo.Spec.ListRefinement
import Weibo.Spec.WindowConservation

/-!
# What a checkpoint of a window operator keeps

A snapshot holds the watermark as an `int64` of nanoseconds and the buffers in a JSON object by
their backend keys. A backend that is restored as it was holds the watermark in eight bytes, once
there was one. Two operators with the same buffers and the same watermark behave the same on every
continuation of the stream, for some order in which the second one enumerates its keys.

The watermark comes back as it was exactly if it is in the range of `int64`. That excludes the zero
time, which stands for no watermark yet, in a snapshot, and the watermark of the year 9999 at the
end of a stream in both. The keys come back if they are valid UTF-8.

## Key results

- `SameOutput.of_agree`: same buffers and watermark, same output
- `watermark_eq_of_sameOutput`: a different watermark shows
- `window_checkpoint_fidelity`: which states survive a checkpoint
-/

namespace Weibo

open List OperatorLoop WindowBuffers Utf8

/-! ## The stored watermark -/

theorem foldl_bigEndian (n x acc : ℕ) :
    (bigEndian n x).foldl (fun n c => n * 256 + c.toNat) acc = acc * 256 ^ n + x % 256 ^ n := by
  induction n generalizing acc with
  | zero => simp [bigEndian, Nat.mod_one]
  | succ n ih =>
    have hbyte : (UInt8.ofNat (x / 256 ^ n % 256)).toNat = x / 256 ^ n % 256 := by
      rw [UInt8.toNat_ofNat']
      exact Nat.mod_eq_of_lt (Nat.mod_lt _ (by decide))
    rw [bigEndian, foldl_cons, ih, hbyte, Nat.pow_succ, Nat.mod_mul]
    ring

theorem loadWatermark_storeWatermark (t : Int) :
    loadWatermark (some (storeWatermark t)) = unixNano t := by
  have hlength : (storeWatermark t).length = 8 := bigEndian_length 8 _
  have hnumber : fromBigEndian (storeWatermark t) = (unixNano t % 2 ^ 64).toNat := by
    rw [storeWatermark, fromBigEndian, foldl_bigEndian, Nat.zero_mul, Nat.zero_add]
    apply Nat.mod_eq_of_lt
    have hlt : unixNano t % 2 ^ 64 < 2 ^ 64 := Int.emod_lt_of_pos _ (by decide)
    omega
  rw [loadWatermark, if_pos hlength, hnumber]
  have hnonneg : 0 ≤ unixNano t % 2 ^ 64 := Int.emod_nonneg _ (by decide)
  rw [Int.toNat_of_nonneg hnonneg, unixNano, unixNano]
  omega

section Durable

variable (tf : TimeFormat) (assigner : WindowAssigner) (reducer : Option ReduceFn)

/-- The operator with its backend after some records. -/
def durableRun (done : List (KeyOrder × Record)) : DurableWindow :=
  done.foldl (durableStep tf assigner reducer) ⟨freshWindows, none⟩

/-- What the backend holds follows from the current watermark. -/
def StoredWatermark (s : DurableWindow) : Prop :=
  zeroTime ≤ s.state.currentWatermark ∧
    s.stored = if s.state.currentWatermark = zeroTime then none
      else some (storeWatermark s.state.currentWatermark)

theorem storedWatermark_step {s : DurableWindow} (h : StoredWatermark s) (x : KeyOrder × Record) :
    StoredWatermark (durableStep tf assigner reducer s x) := by
  obtain ⟨hzero, hstored⟩ := h
  obtain ⟨order, r⟩ := x
  -- only a watermark changes the current one
  have hsame : ¬ r.isWatermark = true →
      ((windowLoop tf assigner reducer).toTransducer.step s.state (order, r)).1.currentWatermark =
        s.state.currentWatermark := by
    intro hw
    rcases windowLoop_step_cases tf assigner reducer s.state order r with
      ⟨-, -, -, -, hstep⟩ | ⟨hw', -⟩ | ⟨-, -, -, -, hstep⟩ | ⟨-, -, -, -, hstep⟩
    · rw [hstep]
    · exact absurd hw' hw
    · rw [hstep]
    · rw [hstep]
  by_cases hw : r.isWatermark = true
  · have hmax : (durableStep tf assigner reducer s (order, r)).state.currentWatermark =
        max s.state.currentWatermark r.timestamp := by
      rw [durableStep]
      dsimp only
      rw [windowLoop_step_watermark tf assigner reducer s.state order hw]
      rfl
    by_cases hlt : s.state.currentWatermark < r.timestamp
    · rw [max_eq_right (le_of_lt hlt)] at hmax
      refine ⟨by rw [hmax]; omega, ?_⟩
      rw [hmax, if_neg (by omega)]
      exact if_pos ⟨hw, hlt⟩
    · rw [max_eq_left (not_lt.mp hlt)] at hmax
      refine ⟨by rw [hmax]; exact hzero, ?_⟩
      rw [hmax, ← hstored]
      exact if_neg fun hboth => hlt hboth.2
  · refine ⟨le_of_le_of_eq hzero (hsame hw).symm, ?_⟩
    show (if _ then _ else s.stored) = _
    rw [if_neg fun hboth => hw hboth.1, hstored]
    show _ = if ((windowLoop tf assigner reducer).toTransducer.step s.state
      (order, r)).1.currentWatermark = zeroTime then _ else _
    rw [show (durableStep tf assigner reducer s (order, r)).state.currentWatermark =
      s.state.currentWatermark from hsame hw, hsame hw]

theorem storedWatermark_run (done : List (KeyOrder × Record)) :
    StoredWatermark (durableRun tf assigner reducer done) := by
  have hfold : ∀ s : DurableWindow, StoredWatermark s →
      StoredWatermark (done.foldl (durableStep tf assigner reducer) s) := by
    induction done with
    | nil => exact fun s h => h
    | cons x done ih => exact fun s h => ih _ (storedWatermark_step tf assigner reducer h x)
  exact hfold _ ⟨le_refl _, rfl⟩

/-- The watermark that is loaded. -/
theorem reload_run (done : List (KeyOrder × Record)) :
    let s := durableRun tf assigner reducer done
    s.reload = ⟨s.state.windows, if s.state.currentWatermark = zeroTime then zeroTime
      else unixNano s.state.currentWatermark⟩ := by
  intro s
  have hstored := (storedWatermark_run tf assigner reducer done).2
  rw [DurableWindow.reload, hstored]
  split
  · rfl
  · rw [loadWatermark_storeWatermark]

end Durable

/-! ## The same buffers and watermark, the same output -/

/-- The operators can emit the same on every continuation. -/
def SameOutput (tf : TimeFormat) (assigner : WindowAssigner) (reducer : Option ReduceFn)
    (s s' : WindowState) : Prop :=
  ∀ src dst, (windowLoop tf assigner reducer).Completes s src dst ↔
    (windowLoop tf assigner reducer).Completes s' src dst

/-- Same buffers and watermark. -/
structure Agree (s s' : WindowState) : Prop where
  lookup : ∀ k, s'.windows.lookup k = s.windows.lookup k
  currentWatermark : s'.currentWatermark = s.currentWatermark

variable {s s' : WindowState} {ws ws' : WindowBuffers} {r : Record} {assigner : WindowAssigner}
  {dst : List Record}

theorem Agree.symm (h : Agree s s') : Agree s' s :=
  ⟨fun k => (h.lookup k).symm, h.currentWatermark.symm⟩

/-- Another backend with the same keys can enumerate them in the same order. -/
theorem exists_order (h : ∀ k, ws'.lookup k = ws.lookup k) (order : KeyOrder) : ∃ order' : KeyOrder, order'.1 ws'.keys = order.1 ws.keys := by
  have hperm : ws'.keys.Perm ws.keys := by
    rw [perm_ext_iff_of_nodup ws'.keys_nodup ws.keys_nodup]
    intro k
    rw [mem_keys_iff, mem_keys_iff, h k]
  refine ⟨⟨fun l => if l = ws'.keys then order.1 ws.keys else l, fun l => ?_⟩, if_pos rfl⟩
  show (if l = ws'.keys then order.1 ws.keys else l).Perm l
  by_cases hl : l = ws'.keys
  · rw [if_pos hl, hl]
    exact (order.2 ws.keys).trans hperm.symm
  · rw [if_neg hl]

theorem fireAll_congr (tf : TimeFormat) (reducer : Option ReduceFn) (ks : List Bytes)
    (h : ∀ k, ws'.lookup k = ws.lookup k) :
    (fireAll tf reducer ks ws').2 = (fireAll tf reducer ks ws).2 := by
  induction ks generalizing ws ws' with
  | nil => rfl
  | cons k ks ih =>
    have herase : ∀ k', (ws'.erase k).lookup k' = (ws.erase k).lookup k' := by
      intro k'
      by_cases hk : k' = k
      · rw [hk, AList.lookup_erase, AList.lookup_erase]
      · rw [AList.lookup_erase_ne hk, AList.lookup_erase_ne hk, h k']
    show fireWindow tf reducer ws' k ++ _ = fireWindow tf reducer ws k ++ _
    rw [fireWindow_congr tf reducer (h k), ih herase]

section Agree

variable {tf : TimeFormat} {assigner : WindowAssigner} {reducer : Option ReduceFn}

/-- Windows that do not merge: one append for each, whatever the order of the keys. -/
theorem handleDataRecord_agree_fixed (hfixed : assigner.isSession = false)
    (h : ∀ k, ws'.lookup k = ws.lookup k) (order order' : KeyOrder) (r : Record) (k : Bytes) :
    (handleDataRecord tf assigner order' ws' r).lookup k =
      (handleDataRecord tf assigner order ws r).lookup k := by
  rw [handleDataRecord_of_not_session tf hfixed, handleDataRecord_of_not_session tf hfixed]
  generalize assigner.assignWindows r.timestamp = wins
  induction wins generalizing ws ws' with
  | nil => exact h k
  | cons win wins ih =>
    refine ih fun k => ?_
    rw [append_lookup, append_lookup, h k, getAll_eq_of_lookup (h _)]

theorem handleDataRecord_agree (h : ∀ k, ws'.lookup k = ws.lookup k) (hfits : Fits assigner r)
    {order order' : KeyOrder} (horder : order'.1 ws'.keys = order.1 ws.keys) (k : Bytes) :
    (handleDataRecord tf assigner order' ws' r).lookup k =
      (handleDataRecord tf assigner order ws r).lookup k := by
  cases hsession : assigner.isSession with
  | true =>
    -- the same sessions are merged, in the same order
    obtain ⟨stop, hwin⟩ := hfits.session hsession
    have hgetAll : ws'.getAll = ws.getAll := funext fun k => getAll_eq_of_lookup (h k)
    have hoverlap : overlapping tf order' ws' r.key ⟨r.timestamp, stop⟩ =
        overlapping tf order ws r.key ⟨r.timestamp, stop⟩ := by
      rw [overlapping, overlapping, horder]
    rw [handleDataRecord, handleDataRecord, hwin, foldl_cons, foldl_cons, foldl_nil,
      foldl_nil, assignToWindow_session tf hsession, assignToWindow_session tf hsession, hoverlap,
      append_lookup, append_lookup, eraseAll_lookup, eraseAll_lookup, hgetAll, h k]
    congr 3
    apply getAll_eq_of_lookup
    rw [eraseAll_lookup, eraseAll_lookup, h]
  | false => exact handleDataRecord_agree_fixed hsession h order order' r k

/-- Two operators agree after a record if they put it into the same buffers. They may have different
    reducers and enumerate their keys in different orders. -/
theorem Agree.step (h : Agree s s') (reducer reducer' : Option ReduceFn) {order order' : KeyOrder}
    (hdata : ∀ k, (handleDataRecord tf assigner order' s'.windows r).lookup k =
      (handleDataRecord tf assigner order s.windows r).lookup k) :
    Agree ((windowLoop tf assigner reducer).toTransducer.step s (order, r)).1
      ((windowLoop tf assigner reducer').toTransducer.step s' (order', r)).1 := by
  have hlate : s'.Late r ↔ s.Late r := by
    rw [WindowState.Late, WindowState.Late, h.currentWatermark]
  rcases windowLoop_step_cases tf assigner reducer s order r with
    ⟨hcut, -, -, -, hstep⟩ | ⟨hw, hstep⟩ | ⟨hm, hw, hb, hl, hstep⟩ | ⟨hm, hw, hb, hl, hstep⟩
  · rw [hstep, windowLoop_step_cut tf assigner reducer' s' order' hcut]
    exact h
  · rw [hstep, windowLoop_step_watermark tf assigner reducer' s' order' hw]
    constructor
    · intro k
      show (fireAll tf reducer' (closedKeys tf order' s' _) s'.windows).1.lookup k =
        (fireAll tf reducer (closedKeys tf order s _) s.windows).1.lookup k
      rw [fireAll_lookup, fireAll_lookup, h.lookup]
      simp only [mem_closedKeys, h.lookup, h.currentWatermark]
    · show max s'.currentWatermark r.timestamp = max s.currentWatermark r.timestamp
      rw [h.currentWatermark]
  · rw [hstep, windowLoop_step_data tf assigner reducer' s' order' hm]
    rw [show windowRecord tf assigner order' s' r = s' from if_pos (hlate.mpr hl)]
    exact h
  · rw [hstep, windowLoop_step_data tf assigner reducer' s' order' hm]
    rw [show windowRecord tf assigner order' s' r =
      { s' with windows := handleDataRecord tf assigner order' s'.windows r } from
        if_neg fun hl' => hl (hlate.mp hl')]
    exact ⟨hdata, h.currentWatermark⟩

/-- The second operator can follow each step of the first one. -/
theorem agree_step (h : Agree s s') (hfits : Fits assigner r) (order : KeyOrder) :
    ∃ order', Agree ((windowLoop tf assigner reducer).toTransducer.step s (order, r)).1
        ((windowLoop tf assigner reducer).toTransducer.step s' (order', r)).1 ∧
      ((windowLoop tf assigner reducer).toTransducer.step s' (order', r)).2 =
        ((windowLoop tf assigner reducer).toTransducer.step s (order, r)).2 := by
  obtain ⟨order', horder⟩ := exists_order h.lookup order
  refine ⟨order', h.step reducer reducer (handleDataRecord_agree h.lookup hfits horder), ?_⟩
  rcases windowLoop_step_cases tf assigner reducer s order r with
    ⟨hcut, -, -, -, hstep⟩ | ⟨hw, hstep⟩ | ⟨hm, -, -, -, hstep⟩ | ⟨hm, -, -, -, hstep⟩
  · rw [hstep, windowLoop_step_cut tf assigner reducer s' order' hcut]
  · -- the second operator enumerates its keys as the first one does
    rw [hstep, windowLoop_step_watermark tf assigner reducer s' order' hw]
    show (fireAll tf reducer (closedKeys tf order' s' _) s'.windows).2 =
      (fireAll tf reducer (closedKeys tf order s _) s.windows).2
    rw [closedKeys, horder, h.currentWatermark, fireAll_congr tf reducer _ h.lookup]
    rfl
  · rw [hstep, windowLoop_step_data tf assigner reducer s' order' hm]
  · rw [hstep, windowLoop_step_data tf assigner reducer s' order' hm]

/-- What one operator can emit, the other one can. -/
theorem completes_of_agree (hfits : ∀ r, Fits assigner r) (h : Agree s s')
    {src : List Record} (hdst : (windowLoop tf assigner reducer).Completes s src dst) :
    (windowLoop tf assigner reducer).Completes s' src dst := by
  induction src generalizing s s' dst with
  | nil =>
    obtain ⟨order, rfl⟩ := completes_nil hdst
    obtain ⟨order', horder⟩ := exists_order h.lookup order
    refine ⟨[], order', rfl, ?_⟩
    show (fireAll tf reducer (order.1 s.windows.keys) s.windows).2 =
      (fireAll tf reducer (order'.1 s'.windows.keys) s'.windows).2
    rw [horder, fireAll_congr tf reducer _ h.lookup]
  | cons r src ih =>
    obtain ⟨order, dst', rfl, hrest⟩ := completes_cons hdst
    obtain ⟨order', hagree, hout⟩ := agree_step h (hfits r) order
    obtain ⟨done, last, hdone, hdst'⟩ := ih hagree hrest
    refine ⟨(order', r) :: done, last, by rw [map_cons, hdone], ?_⟩
    rw [hdst', ← hout, Transducer.outs, append_assoc]
    rfl

theorem SameOutput.of_agree (hfits : ∀ r, Fits assigner r) (h : Agree s s') :
    SameOutput tf assigner reducer s s' := fun _ _ =>
  ⟨completes_of_agree hfits h, completes_of_agree hfits h.symm⟩

end Agree

/-! ## Another watermark shows -/

section Shows

variable {tf : TimeFormat} {assigner : WindowAssigner} {reducer : Option ReduceFn}

/-- The keys of the buffered records. -/
def bufferedKeys (ws : WindowBuffers) : List Bytes :=
  ws.keys.flatMap fun k => (ws.getAll k).map Record.key

/-- What a window emits has the key of one of its records. -/
theorem key_of_mem_fireWindow {k : Bytes} {x : Record} (h : x ∈ fireWindow tf reducer ws k) : ∃ r ∈ ws.getAll k, x.key = r.key := by
  cases reducer with
  | none =>
    obtain ⟨r, hr, rfl⟩ := mem_map.mp h
    exact ⟨r, hr, rfl⟩
  | some fn =>
    dsimp only [fireWindow] at h
    split at h
    · rename_i last hlast
      rw [mem_singleton.mp h]
      exact ⟨last, mem_of_getLast? hlast, rfl⟩
    · cases h

theorem key_of_mem_flush {order : KeyOrder} {x : Record}
    (h : x ∈ flushRemaining tf reducer order s) : x.key ∈ bufferedKeys s.windows := by
  rw [flushRemaining, fireAll_outs tf reducer (order.nodup_keys _)] at h
  obtain ⟨k, hk, hx⟩ := mem_flatMap.mp h
  obtain ⟨r, hr, hkey⟩ := key_of_mem_fireWindow hx
  exact mem_flatMap.mpr ⟨k, mem_keys_iff.mpr (order.mem_keys.mp hk), mem_map.mpr ⟨r, hr, hkey.symm⟩⟩

theorem append_concat_lookup (ws : WindowBuffers) (k : Bytes) (rs : List Record) (r : Record) :
    ∃ k' rs', (ws.append k (rs ++ [r])).lookup k' = some (rs' ++ [r]) :=
  ⟨k, ws.getAll k ++ rs, by rw [append_lookup, if_pos rfl, append_assoc]⟩

/-- A record stands last in the buffer of the last window it is assigned to. -/
theorem exists_buffer_handleDataRecord (order : KeyOrder) (ws : WindowBuffers)
    (hwins : assigner.assignWindows r.timestamp ≠ []) :
    ∃ k rs, (handleDataRecord tf assigner order ws r).lookup k = some (rs ++ [storedRecord r]) := by
  have hone : ∀ (ws : WindowBuffers) (win : Window), ∃ k rs,
      (assignToWindow tf assigner order ws r.key win (storedRecord r)).lookup k =
        some (rs ++ [storedRecord r]) := by
    intro ws win
    cases hsession : assigner.isSession with
    | true =>
      rw [assignToWindow_session tf hsession]
      exact append_concat_lookup _ _ _ _
    | false =>
      simp only [assignToWindow, hsession, Bool.false_eq_true, if_false, if_true]
      exact append_concat_lookup ws _ [] _
  -- later windows may merge the buffer away, so the last one is taken
  obtain ⟨wins, win, hlist⟩ := (eq_nil_or_concat' _).resolve_left hwins
  rw [handleDataRecord, hlist, foldl_append]
  exact hone _ win

/-- And so it shows when the buffers are flushed. -/
theorem exists_mem_flush (tf : TimeFormat) (reducer : Option ReduceFn) (order : KeyOrder)
    {k : Bytes} {rs : List Record} (h : s.windows.lookup k = some (rs ++ [r])) :
    ∃ x ∈ flushRemaining tf reducer order s, x.key = r.key := by
  have hkey : k ∈ order.1 s.windows.keys := order.mem_keys.mpr (by rw [h]; rfl)
  have hgetAll : s.windows.getAll k = rs ++ [r] := by rw [getAll, h]; rfl
  have hfire : ∃ x ∈ fireWindow tf reducer s.windows k, x.key = r.key := by
    cases reducer with
    | none =>
      refine ⟨_, mem_map.mpr ⟨r, ?_, rfl⟩, rfl⟩
      rw [hgetAll]
      exact mem_append_right _ (mem_singleton_self r)
    | some fn =>
      dsimp only [fireWindow]
      rw [hgetAll, getLast?_concat]
      exact ⟨_, mem_singleton_self _, rfl⟩
  obtain ⟨x, hx, hxkey⟩ := hfire
  rw [flushRemaining, fireAll_outs tf reducer (order.nodup_keys _)]
  exact ⟨x, mem_flatMap.mpr ⟨k, hkey, hx⟩, hxkey⟩

/-- A record that only one of two operators takes shows in its output, if the key is a new one. -/
theorem not_completes_of_late (tf : TimeFormat) (reducer : Option ReduceFn)
    (hm : r.isMarker = false) (hwins : assigner.assignWindows r.timestamp ≠ []) (hlate : ¬ s.Late r)
    (hlate' : s'.Late r) (hkey : r.key ∉ bufferedKeys s'.windows) :
    ∃ dst, (windowLoop tf assigner reducer).Completes s [r] dst ∧
      ¬ (windowLoop tf assigner reducer).Completes s' [r] dst := by
  obtain ⟨dst, hdst⟩ := (windowLoop tf assigner reducer).exists_completes s [r]
  refine ⟨dst, hdst, fun hdst' => ?_⟩
  obtain ⟨order, rest, rfl, hrest⟩ := completes_cons hdst
  obtain ⟨last, rfl⟩ := completes_nil hrest
  obtain ⟨order', rest', heq, hrest'⟩ := completes_cons hdst'
  obtain ⟨last', rfl⟩ := completes_nil hrest'
  rw [windowLoop_step_data tf assigner reducer s order hm,
    windowLoop_step_data tf assigner reducer s' order' hm, show windowRecord tf assigner order s r =
      { s with windows := handleDataRecord tf assigner order s.windows r } from if_neg hlate,
    show windowRecord tf assigner order' s' r = s' from if_pos hlate'] at heq
  -- the first operator flushes a record of the new key, which the second one cannot
  obtain ⟨k, rs, hbuffer⟩ := exists_buffer_handleDataRecord order s.windows hwins
  obtain ⟨x, hx, hxkey⟩ := exists_mem_flush tf reducer last
    (s := { s with windows := handleDataRecord tf assigner order s.windows r }) hbuffer
  have hmem : x ∈ flushRemaining tf reducer last' s' := by
    have hflush : flushRemaining tf reducer last
        { s with windows := handleDataRecord tf assigner order s.windows r } =
        flushRemaining tf reducer last' s' := heq
    rwa [← hflush]
  have hfound := key_of_mem_flush hmem
  rw [hxkey] at hfound
  exact hkey hfound

/-- A restored operator with the same behaviour has the same watermark. -/
theorem watermark_eq_of_sameOutput (hwins : ∀ t, assigner.assignWindows t ≠ [])
    (h : SameOutput tf assigner reducer s s')
    (hwm : s'.currentWatermark = unixNano s.currentWatermark) :
    unixNano s.currentWatermark = s.currentWatermark := by
  by_contra hne
  obtain ⟨κ, hκ⟩ := Infinite.exists_notMem_finset
    (bufferedKeys s.windows ++ bufferedKeys s'.windows).toFinset
  rw [mem_toFinset, mem_append, not_or] at hκ
  -- what is restored is in the range of `int64`
  have hrange : -2 ^ 63 ≤ unixNano s.currentWatermark ∧ unixNano s.currentWatermark < 2 ^ 63 := by
    have hlt : (s.currentWatermark + 2 ^ 63) % 2 ^ 64 < 2 ^ 64 := Int.emod_lt_of_pos _ (by decide)
    have hnonneg : 0 ≤ (s.currentWatermark + 2 ^ 63) % 2 ^ 64 := Int.emod_nonneg _ (by decide)
    rw [unixNano]
    omega
  have hzero : s'.currentWatermark ≠ zeroTime := by
    rw [hwm, zeroTime]
    omega
  by_cases hlt : unixNano s.currentWatermark < s.currentWatermark
  · -- a record at the restored watermark is late only for the original
    obtain ⟨dst, hdst, hnot⟩ := not_completes_of_late tf reducer (s := s')
      (r := { key := κ, timestamp := unixNano s.currentWatermark }) rfl (hwins _)
      (fun hlate => by
        have : unixNano s.currentWatermark < s'.currentWatermark := hlate.2
        omega)
      ⟨by rw [zeroTime]; omega, hlt⟩ hκ.1
    exact hnot ((h _ _).mpr hdst)
  · -- one right before it is late only for the restored operator
    obtain ⟨dst, hdst, hnot⟩ := not_completes_of_late tf reducer (s := s)
      (r := { key := κ, timestamp := unixNano s.currentWatermark - 1 }) rfl (hwins _)
      (fun hlate => by
        have : unixNano s.currentWatermark - 1 < s.currentWatermark := hlate.2
        omega)
      ⟨hzero, by show unixNano s.currentWatermark - 1 < s'.currentWatermark; omega⟩ hκ.2
    exact hnot ((h _ _).mp hdst)

end Shows

/-! ## Valid keys come back -/

theorem Standard.assignWindows_ne_nil (h : Standard assigner) (ts : Int) :
    assigner.assignWindows ts ≠ [] := by
  cases h with
  | tumbling size offset pos => exact cons_ne_nil _ _
  | session gap pos => exact cons_ne_nil _ _
  | sliding size slide offset pos hsize =>
    dsimp only [Weibo.sliding]
    split
    · exact cons_ne_nil _ _
    · assumption

section Valid

variable {tf : TimeFormat} {assigner : WindowAssigner} {reducer : Option ReduceFn}

theorem storable_step (h : Storable s.windows) (order : KeyOrder)
    (hr : r.isData = true → validUtf8 r.key = true) :
    Storable ((windowLoop tf assigner reducer).toTransducer.step s (order, r)).1.windows := by
  rcases windowLoop_step_cases tf assigner reducer s order r with
    ⟨-, -, -, -, hstep⟩ | ⟨-, hstep⟩ | ⟨-, -, -, -, hstep⟩ | ⟨hm, -, -, -, hstep⟩ <;> rw [hstep]
  · exact h
  · intro k rs hlookup
    change (fireAll tf reducer _ s.windows).1.lookup k = some rs at hlookup
    rw [fireAll_lookup] at hlookup
    split at hlookup
    · simp at hlookup
    · exact h k rs hlookup
  · exact h
  · exact h.handleDataRecord order (hr (Record.isMarker_eq_false.mp hm))

theorem storable_state (h : Storable s.windows) {done : List (KeyOrder × Record)}
    (hkeys : ∀ x ∈ done, x.2.isData = true → validUtf8 x.2.key = true) :
    Storable ((windowLoop tf assigner reducer).toTransducer.state s done).windows := by
  induction done generalizing s with
  | nil => exact h
  | cons x done ih =>
    obtain ⟨hx, hkeys⟩ := forall_mem_cons.mp hkeys
    exact ih (storable_step h x.1 hx) hkeys

end Valid

/-! ## Other keys do not -/

/-- Every buffer holds a record. -/
def NonemptyBuffers (ws : WindowBuffers) : Prop := ∀ k rs, ws.lookup k = some rs → rs ≠ []

/-- With a reducer, a flush emits one record for each buffer. -/
theorem flush_length (tf : TimeFormat) (fn : ReduceFn) (order : KeyOrder)
    (h : NonemptyBuffers s.windows) :
    (flushRemaining tf (some fn) order s).length = s.windows.keys.length := by
  have hone : ∀ k ∈ order.1 s.windows.keys, (fireWindow tf (some fn) s.windows k).length = 1 := by
    intro k hk
    obtain ⟨rs, hrs⟩ := Option.isSome_iff_exists.mp (order.mem_keys.mp hk)
    have hgetAll : s.windows.getAll k = rs := by rw [getAll, hrs]; rfl
    dsimp only [fireWindow]
    rw [hgetAll]
    split
    · rfl
    · rename_i hnone
      exact absurd (getLast?_eq_none_iff.mp hnone) (h k rs hrs)
  rw [flushRemaining, fireAll_outs tf (some fn) (order.nodup_keys _), length_flatMap,
    map_congr_left hone, map_const', sum_replicate, (order.2 s.windows.keys).length_eq]
  exact Nat.mul_one _

theorem NonemptyBuffers.append (h : NonemptyBuffers ws) (k : Bytes) {rs : List Record}
    (hrs : rs ≠ []) : NonemptyBuffers (ws.append k rs) := by
  intro k' rs' hlookup
  rw [append_lookup] at hlookup
  split at hlookup
  · cases hlookup
    exact append_ne_nil_of_right_ne_nil _ hrs
  · exact h k' rs' hlookup

section Invalid

variable (tf : TimeFormat) (fn : ReduceFn) (κ : Bytes)

/-- The backend key of the window from 0 to 10. -/
def firstWindow : Bytes := (⟨κ, 0, 10⟩ : WindowKey).string tf

/-- One record of the key, in that window. -/
def oneBuffered : WindowState := ⟨WindowBuffers.append ∅ (firstWindow tf κ) [{ key := κ }], 0⟩

/-- A watermark and the record. -/
def oneRecord : List (KeyOrder × Record) :=
  let order : KeyOrder := ⟨id, fun l => List.Perm.refl l⟩
  [(order, .newWatermark 0), (order, { key := κ })]

theorem state_oneRecord :
    (windowLoop tf (tumbling 10 0) (some fn)).toTransducer.state freshWindows (oneRecord κ) =
      oneBuffered tf κ := rfl

/-- One more record of the key and the window, and the end of the input. -/
theorem exists_flush_of_completes (hwm : s.currentWatermark = 0)
    (h : (windowLoop tf (tumbling 10 0) (some fn)).Completes s [{ key := κ, offset := 1 }] dst) :
    ∃ order, dst = flushRemaining tf (some fn) order
      { s with windows := s.windows.append (firstWindow tf κ) [{ key := κ, offset := 1 }] } := by
  obtain ⟨order, rest, rfl, hrest⟩ := completes_cons h
  obtain ⟨last, rfl⟩ := completes_nil hrest
  have hlate : ¬ s.Late { key := κ, offset := 1 } := fun hlate => by
    have hlt : (0 : Int) < s.currentWatermark := hlate.2
    omega
  rw [windowLoop_step_data tf (tumbling 10 0) (some fn) s order rfl,
    show windowRecord tf (tumbling 10 0) order s { key := κ, offset := 1 } =
      { s with windows := handleDataRecord tf (tumbling 10 0) order s.windows _ } from if_neg hlate,
    handleDataRecord_of_not_session tf rfl]
  exact ⟨last, rfl⟩

theorem oneBuffered_length
    (h : (windowLoop tf (tumbling 10 0) (some fn)).Completes (oneBuffered tf κ)
      [{ key := κ, offset := 1 }] dst) : dst.length = 1 := by
  obtain ⟨order, rfl⟩ := exists_flush_of_completes tf fn κ rfl h
  have hempty : NonemptyBuffers ∅ := fun k rs hlookup => absurd hlookup (by simp)
  rw [flush_length tf fn order ((hempty.append _ (cons_ne_nil _ _)).append _ (cons_ne_nil _ _))]
  simp [oneBuffered, append]

/-- The record has come back under another key, so the second one is put into a buffer of its
    own. -/
theorem restored_length (hκ : validUtf8 κ = false)
    (h : (windowLoop tf (tumbling 10 0) (some fn)).Completes
      (restoreWindow 0 (oneBuffered tf κ).windows) [{ key := κ, offset := 1 }] dst) :
    2 ≤ dst.length := by
  obtain ⟨order, rfl⟩ := exists_flush_of_completes tf fn κ (show unixNano 0 = 0 by decide) h
  have hinvalid : validUtf8 (firstWindow tf κ) = false := by
    rw [firstWindow, validUtf8_string]
    exact hκ
  have hlookup := restoreWindow_lookup 0 (oneBuffered tf κ).windows
  have hread : getAll (jsonMap (oneBuffered tf κ).windows)
      (coerceUtf8 (firstWindow tf κ)) = [{ key := κ }] := by
    have hmap : jsonMap (oneBuffered tf κ).windows =
        AList.insert (coerceUtf8 (firstWindow tf κ)) [{ key := κ }] ∅ := rfl
    rw [getAll, hmap, AList.lookup_insert]
    rfl
  have hfull : NonemptyBuffers (restoreWindow 0 (oneBuffered tf κ).windows).windows := by
    intro k rs hk
    rw [hlookup k] at hk
    split at hk
    · simp at hk
    · rename_i hne
      cases hk
      exact hne
  rw [flush_length tf fn order (hfull.append _ (cons_ne_nil _ _))]
  -- two different keys have a buffer
  have hne : coerceUtf8 (firstWindow tf κ) ≠ firstWindow tf κ := by
    rw [Ne, coerceUtf8_eq_iff, hinvalid]
    decide
  have hnodup : [coerceUtf8 (firstWindow tf κ), firstWindow tf κ].Nodup := by simp [hne]
  refine (hnodup.subperm ?_).length_le
  intro k hk
  rw [mem_keys_iff, append_lookup]
  rcases mem_cons.mp hk with rfl | hk
  · rw [if_neg hne, hlookup, hread]
    rfl
  · rw [if_pos (mem_singleton.mp hk)]
    rfl

/-- So an operator restored between two records of an invalid key emits one record more. -/
theorem not_sameOutput_of_invalid (hκ : validUtf8 κ = false) :
    ¬ SameOutput tf (tumbling 10 0) (some fn) (oneBuffered tf κ)
      (restoreWindow 0 (oneBuffered tf κ).windows) := by
  intro hsame
  obtain ⟨dst, hdst⟩ := exists_completes (windowLoop tf (tumbling 10 0) (some fn))
    (restoreWindow 0 (oneBuffered tf κ).windows) [{ key := κ, offset := 1 }]
  have htwo := restored_length tf fn κ hκ hdst
  have hone := oneBuffered_length tf fn κ ((hsame _ _).mpr hdst)
  omega

end Invalid

/-! ## Checkpoints -/

/-- Restoring a snapshot with valid keys loses nothing but the watermark. -/
theorem restore_sameOutput_iff (tf : TimeFormat)
    (hassigner : Standard assigner) (reducer : Option ReduceFn) {done : List (KeyOrder × Record)}
    (hkeys : ∀ x ∈ done, x.2.isData = true → validUtf8 x.2.key = true) :
    let s := (windowLoop tf assigner reducer).toTransducer.state freshWindows done
    SameOutput tf assigner reducer s (restoreWindow s.currentWatermark s.windows) ↔
      unixNano s.currentWatermark = s.currentWatermark := by
  intro s
  constructor
  · exact fun hsame => watermark_eq_of_sameOutput hassigner.assignWindows_ne_nil hsame rfl
  · intro hnano
    have hstorable : Storable s.windows := storable_state
      (fun k rs hlookup => absurd hlookup (by simp [freshWindows])) hkeys
    exact .of_agree hassigner.fits ⟨hstorable.restoreWindow _, hnano⟩

/-- Reloading loses nothing but the watermark, if there was one. -/
theorem reload_sameOutput_iff (tf : TimeFormat)
    (hassigner : Standard assigner) (reducer : Option ReduceFn) (done : List (KeyOrder × Record)) :
    let s := durableRun tf assigner reducer done
    SameOutput tf assigner reducer s.state s.reload ↔ s.state.currentWatermark = zeroTime ∨
        unixNano s.state.currentWatermark = s.state.currentWatermark := by
  intro s
  have hreload : s.reload = _ := reload_run tf assigner reducer done
  by_cases hzero : s.state.currentWatermark = zeroTime
  · rw [if_pos hzero] at hreload
    refine ⟨fun _ => .inl hzero, fun _ => .of_agree hassigner.fits ⟨fun k => ?_, ?_⟩⟩ <;> rw [hreload]
    exact hzero.symm
  · rw [if_neg hzero] at hreload
    constructor
    · exact fun hsame => .inr (watermark_eq_of_sameOutput hassigner.assignWindows_ne_nil hsame
        (by rw [hreload]))
    · intro hnano
      refine .of_agree hassigner.fits ⟨fun k => ?_, ?_⟩ <;> rw [hreload]
      exact hnano.resolve_left hzero

/-- Restoring a snapshot: if and only if all record keys are valid UTF-8, an operator that is
    restored from a snapshot emits the same as the original on every continuation exactly if the
    original's watermark is in the range of `int64`. Reloading the watermark from the backend: the
    same holds exactly if there was no watermark yet or it is in that range. -/
theorem window_checkpoint_fidelity (tf : TimeFormat) :
    (∀ keys : Bytes → Prop,
      (∀ assigner, Standard assigner → ∀ (reducer : Option ReduceFn) (done : List (KeyOrder × Record)),
        (∀ x ∈ done, x.2.isData = true → keys x.2.key) →
        let s := (windowLoop tf assigner reducer).toTransducer.state freshWindows done
        SameOutput tf assigner reducer s (restoreWindow s.currentWatermark s.windows) ↔
          unixNano s.currentWatermark = s.currentWatermark) ↔
      ∀ κ, keys κ → Utf8.validUtf8 κ = true) ∧
    ∀ assigner, Standard assigner → ∀ (reducer : Option ReduceFn) (done : List (KeyOrder × Record)),
      let s := durableRun tf assigner reducer done
      SameOutput tf assigner reducer s.state s.reload ↔
        s.state.currentWatermark = zeroTime ∨
          unixNano s.state.currentWatermark = s.state.currentWatermark := by
  constructor
  · intro keys
    constructor
    · intro hsame κ hκ
      by_contra hinvalid
      rw [Bool.not_eq_true] at hinvalid
      -- two records of the key, the checkpoint in between
      have hkeys : ∀ x ∈ oneRecord κ, x.2.isData = true → keys x.2.key := by
        intro x hx hdata
        rcases mem_cons.mp hx with rfl | hx
        · exact absurd hdata (by decide)
        · rw [mem_singleton.mp hx]
          exact hκ
      have hiff := hsame (tumbling 10 0) (.tumbling 10 0 (by decide)) (some fun _ _ => none)
        (oneRecord κ) hkeys
      rw [state_oneRecord] at hiff
      exact not_sameOutput_of_invalid tf _ κ hinvalid (hiff.mpr (show unixNano 0 = 0 by decide))
    · intro hvalid assigner hassigner reducer done hkeys
      exact restore_sameOutput_iff tf hassigner reducer
        fun x hx hdata => hvalid _ (hkeys x hx hdata)
  · exact fun assigner hassigner reducer done => reload_sameOutput_iff tf hassigner reducer done

/-- A key of one byte that is not UTF-8: with the checkpoint between its two records, the window is
    emitted twice instead of once. -/
theorem checkpoint_splits_binary_key :
    let loop := windowLoop CutRun.unaryFormat (tumbling 10 0) (some fun _ _ => none)
    let s := loop.toTransducer.state freshWindows (oneRecord [0xff])
    let s' := restoreWindow s.currentWatermark s.windows
    s.currentWatermark = 0 ∧ ¬ SameOutput CutRun.unaryFormat (tumbling 10 0) (some fun _ _ => none) s s' ∧
      (∀ dst, loop.Completes s [{ key := [0xff], offset := 1 }] dst → dst.length = 1) ∧
      ∀ dst, loop.Completes s' [{ key := [0xff], offset := 1 }] dst → 2 ≤ dst.length := by
  intro loop s s'
  have hone : ∀ dst, loop.Completes s [{ key := [0xff], offset := 1 }] dst → dst.length = 1 :=
    fun dst hdst => oneBuffered_length _ _ [0xff] hdst
  have htwo : ∀ dst, loop.Completes s' [{ key := [0xff], offset := 1 }] dst → 2 ≤ dst.length :=
    fun dst hdst => restored_length _ _ [0xff] (by decide) hdst
  refine ⟨rfl, fun hsame => ?_, hone, htwo⟩
  obtain ⟨dst, hdst⟩ := loop.exists_completes s' [{ key := [0xff], offset := 1 }]
  have hlength := hone dst ((hsame _ _).mpr hdst)
  have hlength' := htwo dst hdst
  omega

end Weibo
