import Weibo.Spec.WindowCheckpoint
import Weibo.Spec.WindowReduce

/-!
# Two ways to aggregate a window

`WindowReduce` folds the buffer of a window when it fires and emits one aggregate. `Window` followed
by `Reduce` emits every buffered record and folds it into an accumulator, so that the last
accumulator of a window is its aggregate.

Both window operators have the same firings. The order in which the backends enumerate their keys
may differ from run to run, and with it the order of the firings, but not what fires: windows of
fixed size do not merge, so a buffer holds its records in stream order.

## Key results

- `firings_perm`: the firings of two runs on one stream are the same up to their order
- `retained_getLast?`: the last accumulator of a key is the fold of its records
- `windowReduce_agrees`: the aggregate is the last accumulator, for every key and window
-/

namespace Weibo

open List Firing

/-! ## Firings do not depend on the order of the keys -/

section Order

variable {tf : TimeFormat} {assigner : WindowAssigner}

variable {s s' : WindowState}

theorem Agree.refl (s : WindowState) : Agree s s := ⟨fun _ => rfl, rfl⟩

theorem Agree.fires_perm (h : Agree s s') (wm : Option Int)
    {ks ks' : List Bytes} (hks : ks'.Perm ks) : (fires s' wm ks').Perm (fires s wm ks) := by
  have hfun : (fun k => Firing.mk k (s'.windows.getAll k) wm) =
      fun k => Firing.mk k (s.windows.getAll k) wm :=
    funext fun k => by rw [getAll_eq_of_lookup (h.lookup k)]
  rw [fires, fires, hfun]
  exact hks.map _

theorem Agree.keys_perm (h : Agree s s') (order order' : KeyOrder) :
    (order'.1 s'.windows.keys).Perm (order.1 s.windows.keys) := by
  rw [perm_ext_iff_of_nodup (order'.nodup_keys _) (order.nodup_keys _)]
  intro k
  rw [order'.mem_keys, order.mem_keys, h.lookup]

theorem Agree.stepFirings_perm (h : Agree s s') (order order' : KeyOrder) (r : Record) : (stepFirings tf s' (order', r)).Perm (stepFirings tf s (order, r)) := by
  cases hw : r.isWatermark with
  | true =>
    rw [stepFirings_watermark hw, stepFirings_watermark hw, h.currentWatermark]
    exact h.fires_perm _ ((h.keys_perm order order').filter _)
  | false => rw [stepFirings_eq_nil hw, stepFirings_eq_nil hw]

variable (tf) in
/-- In two runs on one stream the same windows fire with the same records. -/
theorem firings_perm (hfixed : assigner.isSession = false) (h : Agree s s')
    {done done' : List (KeyOrder × Record)} (hdone : done'.map Prod.snd = done.map Prod.snd)
    (order order' : KeyOrder) :
    (allFirings tf assigner s' done' order').Perm (allFirings tf assigner s done order) := by
  induction done generalizing s s' done' with
  | nil =>
    obtain rfl := map_eq_nil_iff.mp hdone
    exact h.fires_perm none (h.keys_perm order order')
  | cons x done ih =>
    obtain ⟨⟨o', r⟩, done', rfl, hx, hrest⟩ := map_eq_cons_iff.mp hdone
    obtain ⟨o, r₀⟩ := x
    obtain rfl : r = r₀ := hx
    rw [allFirings_cons, allFirings_cons]
    exact (h.stepFirings_perm o o' r).append
      (ih (h.step none none (handleDataRecord_agree_fixed hfixed h.lookup o o' r)) hrest)

end Order

/-! ## What is buffered -/

/-- A buffered record has neither a partition nor flags. -/
def Stored (ws : WindowBuffers) : Prop := ∀ k, ∀ r ∈ ws.getAll k, storedRecord r = r

namespace Stored

variable {tf : TimeFormat} {assigner : WindowAssigner}

theorem empty : Stored ∅ := by
  intro k r hr
  rw [WindowBuffers.getAll, AList.lookup_empty] at hr
  cases hr

theorem append {ws : WindowBuffers} (h : Stored ws) (k : Bytes) (r : Record) :
    Stored (ws.append k [storedRecord r]) := by
  intro k' x hx
  rw [append_getAll] at hx
  cases mem_append.mp hx with
  | inl hold => exact h k' x hold
  | inr hnew =>
    split at hnew
    · rw [mem_singleton.mp hnew]
      rfl
    · cases hnew

theorem eraseAll {ws : WindowBuffers} (h : Stored ws) (ks : List Bytes) :
    Stored (ks.foldl (fun ws k => ws.erase k) ws) := by
  induction ks generalizing ws with
  | nil => exact h
  | cons k' ks ih =>
    refine ih fun k r hr => ?_
    rw [erase_getAll] at hr
    split at hr
    · cases hr
    · exact h k r hr

theorem step (hfixed : assigner.isSession = false) (h : Stored s.windows) (x : KeyOrder × Record) :
    Stored ((windowLoop tf assigner none).toTransducer.step s x).1.windows := by
  rcases windowLoop_step_cases tf assigner none s x.1 x.2 with
    ⟨-, -, -, -, hstep⟩ | ⟨-, hstep⟩ | ⟨-, -, -, -, hstep⟩ | ⟨-, -, -, -, hstep⟩ <;> rw [hstep]
  · exact h
  · show Stored (fireAll tf none _ s.windows).1
    rw [fireAll_fst]
    exact h.eraseAll _
  · exact h
  · show Stored (handleDataRecord tf assigner x.1 s.windows x.2)
    rw [handleDataRecord_of_not_session tf hfixed]
    generalize assigner.assignWindows x.2.timestamp = wins
    generalize s.windows = ws at h
    induction wins generalizing ws with
    | nil => exact h
    | cons win wins ih => exact ih _ (h.append _ x.2)

theorem allFirings (hfixed : assigner.isSession = false) (h : Stored s.windows)
    {done : List (KeyOrder × Record)} {order : KeyOrder} {f : Firing}
    (hf : f ∈ allFirings tf assigner s done order) : ∀ r ∈ f.entries, storedRecord r = r := by
  have hfires : ∀ {s : WindowState} {wm : Option Int} {ks : List Bytes}, Stored s.windows →
      f ∈ fires s wm ks → ∀ r ∈ f.entries, storedRecord r = r := by
    intro s wm ks h hf
    obtain ⟨k, _, rfl⟩ := mem_map.mp hf
    exact h k
  induction done generalizing s with
  | nil => exact hfires h hf
  | cons x done ih =>
    rw [allFirings_cons, mem_append, stepFirings] at hf
    cases hf with
    | inl hf =>
      split at hf
      · exact hfires h hf
      · cases hf
    | inr hf => exact ih (h.step hfixed x) hf

end Stored

/-! ## What leaves for one window -/

/-- The key of a record and the bounds of its window. -/
def windowOf (r : Record) : Bytes × Option Bytes × Option Bytes :=
  (r.key, r.headers.lookup "window_start", r.headers.lookup "window_end")

/-- The values that leave for one key and window, in the order in which they leave. -/
def valuesFor (q : Bytes × Option Bytes × Option Bytes) (rs : List Record) : List Bytes :=
  ((rs.filter Record.isData).filter fun r => windowOf r = q).map Record.value

namespace Firing

/-- The key and the bounds of the window, as they are in the records. -/
def windowOf (tf : TimeFormat) (f : Firing) : Bytes × Option Bytes × Option Bytes :=
  ((f.window tf).key, some (tf.format (f.window tf).start), some (tf.format (f.window tf).stop))

variable {r : Record}

theorem windowOf_tagWithWindow (tf : TimeFormat) (f : Firing) (hr : r.key = (f.window tf).key) :
    Weibo.windowOf (tagWithWindow tf r ⟨(f.window tf).start, (f.window tf).stop⟩) =
      f.windowOf tf := by
  rw [Weibo.windowOf, tagWithWindow_start, tagWithWindow_stop, windowOf, ← hr]
  rfl

end Firing

variable {tf : TimeFormat}

/-- A firing is that of a window `q` if it has its name. -/
theorem Firing.windowOf_eq_iff {f f' : Firing}
    (hname : (f.window tf).string tf = f.key) (hname' : (f'.window tf).string tf = f'.key) :
    f.windowOf tf = f'.windowOf tf ↔ f.key = f'.key := by
  constructor
  · intro h
    obtain ⟨hkey, hstart, hstop⟩ : (f.window tf).key = (f'.window tf).key ∧
        some (tf.format (f.window tf).start) = some (tf.format (f'.window tf).start) ∧
        some (tf.format (f.window tf).stop) = some (tf.format (f'.window tf).stop) := by
      simpa only [windowOf, Prod.mk.injEq] using h
    rw [← hname, ← hname', WindowKey.string, WindowKey.string, hkey, Option.some.inj hstart,
      Option.some.inj hstop]
  · intro h
    rw [windowOf, windowOf, window, window, h]

theorem Firing.windowOf_of_mem_leaves {f : Firing}
    (hkeys : ∀ r ∈ f.entries, r.key = (f.window tf).key) (reducer : Option ReduceFn)
    (hr : r ∈ f.leaves tf reducer) : Weibo.windowOf r = f.windowOf tf := by
  cases reducer with
  | none =>
    obtain ⟨x, hx, rfl⟩ := mem_map.mp hr
    exact f.windowOf_tagWithWindow tf (hkeys x hx)
  | some fn =>
    obtain ⟨x, hx, rfl⟩ := mem_map.mp hr
    have hx : x ∈ f.entries := mem_of_getLast? (Option.mem_toList.mp hx)
    exact f.windowOf_tagWithWindow tf (hkeys x hx)

section Blocks

variable {tf : TimeFormat} {fs : List Firing}
  (hkeys : ∀ f ∈ fs, ∀ r ∈ f.entries, r.key = (f.window tf).key)

include hkeys

/-- The records of one window are those of its firings. -/
theorem filter_windowOf (reducer : Option ReduceFn) (q : Bytes × Option Bytes × Option Bytes) :
    (fs.flatMap (leaves tf reducer)).filter (fun r => windowOf r = q) =
      (fs.filter fun f => f.windowOf tf = q).flatMap (leaves tf reducer) := by
  induction fs with
  | nil => rfl
  | cons f fs ih =>
    obtain ⟨hf, hfs⟩ := forall_mem_cons.mp hkeys
    have hall : ∀ r ∈ f.leaves tf reducer, windowOf r = f.windowOf tf := fun r hr =>
      windowOf_of_mem_leaves hf reducer hr
    rw [flatMap_cons, filter_append, ih hfs]
    by_cases hq : f.windowOf tf = q
    · rw [filter_cons_of_pos (by simpa using hq), flatMap_cons, filter_eq_self.mpr]
      exact fun r hr => decide_eq_true ((hall r hr).trans hq)
    · rw [filter_cons_of_neg (by simpa using hq), filter_eq_nil_iff.mpr, nil_append]
      exact fun r hr => by simpa [hall r hr] using hq

end Blocks

/-! ## Folding -/

/-- Two records with the same content apart from the bounds of a window. -/
structure SameApartFromWindow (r r' : Record) : Prop where
  key : r'.key = r.key
  value : r'.value = r.value
  timestamp : r'.timestamp = r.timestamp
  offset : r'.offset = r.offset
  partition : r'.partition = r.partition
  isWatermark : r'.isWatermark = r.isWatermark
  isBarrier : r'.isBarrier = r.isBarrier
  checkpointID : r'.checkpointID = r.checkpointID
  headers : ∀ name, name ≠ "window_start" → name ≠ "window_end" →
    r'.headers.lookup name = r.headers.lookup name

/-- The function does not read the bounds of a window. -/
def IgnoresWindow (fn : ReduceFn) : Prop :=
  ∀ accum r r', SameApartFromWindow r r' → fn accum r' = fn accum r

/-- A function that returns a nil accumulator takes nil and empty ones for the same. -/
def IdentifiesNil (fn : ReduceFn) : Prop :=
  ∀ accum r, fn accum r = none → ∀ r', (fn (some []) r').getD [] = (fn none r').getD []

theorem sameApartFromWindow_tag (tf : TimeFormat) (hr : storedRecord r = r) (win : Window) : SameApartFromWindow r (tagWithWindow tf r win) := by
  rw [← hr]
  refine ⟨rfl, rfl, rfl, rfl, rfl, rfl, rfl, rfl, fun name hstart hstop => ?_⟩
  show ((r.headers.insert "window_start" _).insert "window_end" _).lookup name = _
  rw [AList.lookup_insert_ne hstop, AList.lookup_insert_ne hstart]
  rfl

/-- The accumulators that `WindowReduce` and `Reduce` hand on: the backend of `Reduce` gives a nil
    accumulator back as an empty one. -/
theorem plainFold_emits {fn : ReduceFn} (hwindow : IgnoresWindow fn) (hnil : IdentifiesNil fn)
    (win : Window) {rs : List Record} (hstored : ∀ r ∈ rs, storedRecord r = r) (hrs : rs ≠ []) :
    plainFold fn none (rs.map fun r => tagWithWindow tf r win) =
      some ((rs.foldl (fun accum r => fn accum r) none).getD []) := by
  induction rs using reverseRecOn with
  | nil => exact absurd rfl hrs
  | append_singleton rs r ih =>
    have hr := hstored r (by simp)
    rw [map_append, plainFold, foldl_append, foldl_append]
    show some ((fn (plainFold fn none _) (tagWithWindow tf r win)).getD []) = some ((fn _ r).getD [])
    rw [hwindow _ r _ (sameApartFromWindow_tag tf hr win)]
    rcases rs.eq_nil_or_concat with rfl | ⟨ys, y, rfl⟩
    · rfl
    · rw [ih (fun x hx => hstored x (mem_append_left _ hx)) (by simp), concat_eq_append,
        foldl_append]
      -- a nil accumulator has come from the function itself
      show some ((fn (some ((fn _ y).getD [])) r).getD []) = some ((fn (fn _ y) r).getD [])
      cases haccum : fn (ys.foldl (fun accum r => fn accum r) none) y with
      | some accum => rfl
      | none => exact congrArg some (hnil _ y haccum r)

theorem valuesFor_cons_of_eq {q : Bytes × Option Bytes × Option Bytes} (hr : windowOf r = q)
    (accum : Bytes) (rs : List Record) :
    valuesFor q (emitted r accum :: rs) = accum :: valuesFor q rs := by
  have hr : windowOf (emitted r accum) = q := hr
  rw [valuesFor, filter_cons_of_pos rfl, filter_cons_of_pos (by simpa using hr)]
  rfl

theorem valuesFor_cons_of_ne {q : Bytes × Option Bytes × Option Bytes} (hr : windowOf r ≠ q)
    (accum : Bytes) (rs : List Record) :
    valuesFor q (emitted r accum :: rs) = valuesFor q rs := by
  have hr : windowOf (emitted r accum) ≠ q := hr
  rw [valuesFor, filter_cons_of_pos rfl, filter_cons_of_neg (by simpa using hr)]
  rfl

/-- The last accumulator that leaves for a window is the fold of the window's records over what
    there was. -/
theorem retained_getLast? (fn : ReduceFn) (entries : Bytes → Option Bytes) {k : Bytes}
    (q : Bytes × Option Bytes × Option Bytes) {done : List (KeyOrder × Record)}
    (hdone : ∀ r ∈ dataRecords done, windowOf r = q ↔ stateKey r = k) :
    (valuesFor q ((retainLoop fn).toTransducer.outs entries done)).getLast?.or (entries k) =
      plainFold fn (entries k) ((dataRecords done).filter fun r => windowOf r = q) := by
  induction done generalizing entries with
  | nil => rfl
  | cons x done ih =>
    rw [Transducer.outs]
    cases hx : x.2.isMarker with
    | true =>
      rw [dataRecords_marker hx] at hdone ⊢
      rw [retainLoop_step_marker fn entries hx, ← ih entries hdone, valuesFor, valuesFor,
        filter_append, filter_cons_of_neg (by rw [Record.isMarker_eq_true.mp hx]; decide)]
      rfl
    | false =>
      rw [dataRecords_data hx] at hdone ⊢
      obtain ⟨hr, hrest⟩ := forall_mem_cons.mp hdone
      rw [retainLoop_step_data fn entries hx]
      show (valuesFor q (emitted x.2 (newAccum fn entries x.2) ::
        (retainLoop fn).toTransducer.outs (retainRecord fn entries x.2).1 done)).getLast?.or _ = _
      have hlast := ih (retainRecord fn entries x.2).1 hrest
      by_cases hq : windowOf x.2 = q
      · -- the record's accumulator is the one of the window
        obtain rfl : stateKey x.2 = k := hr.mp hq
        have hnew : (retainRecord fn entries x.2).1 (stateKey x.2) =
            some (newAccum fn entries x.2) := Function.update_self _ _ _
        rw [hnew] at hlast
        rw [filter_cons_of_pos (by simpa using hq), valuesFor_cons_of_eq hq, getLast?_cons,
          plainFold, foldl_cons]
        refine Eq.trans ?_ hlast
        cases (valuesFor q ((retainLoop fn).toTransducer.outs _ done)).getLast? <;> rfl
      · have hold : (retainRecord fn entries x.2).1 k = entries k :=
          Function.update_of_ne (fun h => hq (hr.mpr h.symm)) _ _
        rw [hold] at hlast
        rw [filter_cons_of_neg (by simpa using hq), valuesFor_cons_of_ne hq, hlast]

/-! ## Agreement -/

section Worker

variable {tf : TimeFormat} {assigner : WindowAssigner} {done : List (KeyOrder × Record)}
  {order : KeyOrder} (hfits : ∀ r, Fits assigner r) (hdone : AboveZero (done.map Prod.snd))

include hfits hdone

variable (tf order) in
/-- At most one firing is that of a given window. -/
theorem filter_allFirings (q : Bytes × Option Bytes × Option Bytes) :
    let fs := (allFirings tf assigner freshWindows done order).filter fun f => f.windowOf tf = q
    fs = [] ∨ ∃ f, fs = [f] ∧ f ∈ allFirings tf assigner freshWindows done order := by
  intro fs
  have hmem : ∀ f ∈ fs, f ∈ allFirings tf assigner freshWindows done order ∧ f.windowOf tf = q := by
    intro f hf
    rw [mem_filter] at hf
    exact ⟨hf.1, of_decide_eq_true hf.2⟩
  have hnodup : (fs.map key).Nodup :=
    (allFirings_keys_nodup hfits hdone).sublist (filter_sublist.map key)
  match fs, hmem, hnodup with
  | [], _, _ => exact .inl rfl
  | [f], hmem, _ => exact .inr ⟨f, rfl, (hmem f mem_cons_self).1⟩
  | f :: f' :: fs, hmem, hnodup =>
    -- two firings of one window would have the same key
    obtain ⟨hf, hq⟩ := hmem f (by simp)
    obtain ⟨hf', hq'⟩ := hmem f' (by simp)
    have hkey := (windowOf_eq_iff (named_and_owned hfits hdone hf).1
      (named_and_owned hfits hdone hf').1).mp (hq.trans hq'.symm)
    simp [hkey] at hnodup

variable (tf order) in
/-- Among the records of a worker, those of one window are the ones with one state key. -/
theorem exists_stateKey (q : Bytes × Option Bytes × Option Bytes) :
    ∃ k, ∀ r ∈ (allFirings tf assigner freshWindows done order).flatMap (emits tf),
      windowOf r = q ↔ stateKey r = k := by
  set fs := allFirings tf assigner freshWindows done order with hfs
  have hemits : ∀ f ∈ fs, ∀ r ∈ f.emits tf, stateKey r = f.key ∧ windowOf r = f.windowOf tf := by
    intro f hf r hr
    obtain ⟨hname, hkeys⟩ := named_and_owned hfits hdone hf
    exact ⟨(stateKey_of_mem_emits hname hkeys hr).1, windowOf_of_mem_leaves hkeys none hr⟩
  by_cases hq : ∃ f ∈ fs, f.windowOf tf = q
  · obtain ⟨f, hf, rfl⟩ := hq
    refine ⟨f.key, fun r hr => ?_⟩
    obtain ⟨f', hf', hr⟩ := mem_flatMap.mp hr
    rw [(hemits f' hf' r hr).1, (hemits f' hf' r hr).2]
    exact windowOf_eq_iff (named_and_owned hfits hdone hf').1 (named_and_owned hfits hdone hf).1
  · -- a state key that no record has
    obtain ⟨k, hk⟩ := Infinite.exists_notMem_finset ((fs.flatMap (emits tf)).map stateKey).toFinset
    refine ⟨k, fun r hr => iff_of_false ?_ ?_⟩
    · obtain ⟨f, hf, hr⟩ := mem_flatMap.mp hr
      exact fun h => hq ⟨f, hf, (hemits f hf r hr).2.symm.trans h⟩
    · exact fun h => hk (mem_toFinset.mpr (mem_map.mpr ⟨r, hr, h⟩))

end Worker

/-- The aggregate of a firing is the fold of the records that it emits. -/
theorem aggregate_eq_fold {fn : ReduceFn} (hwindow : IgnoresWindow fn)
    (hnil : IdentifiesNil fn) {f : Firing} (hstored : ∀ r ∈ f.entries, storedRecord r = r) :
    (f.aggregate tf fn).map Record.value = (plainFold fn none (f.emits tf)).toList := by
  by_cases hentries : f.entries = []
  · rw [aggregate, emits, hentries]
    rfl
  · rw [emits, plainFold_emits hwindow hnil _ hstored hentries, aggregate,
      getLast?_eq_some_getLast hentries]
    rfl

end Weibo
