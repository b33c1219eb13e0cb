import Weibo.Spec.KeyedReduce
import Weibo.Spec.WindowFiring

/-!
# When eviction shows

`Reduce` follows the highest window end in the headers of its records and drops, each time it moves
on, the accumulators of the windows that ended before it. It infers the end of a window from the
text of the accumulator's key.

A drop shows if a record comes back to the dropped key: it then starts a new accumulator where a
`Reduce` without eviction continues the old one. `eviction_visible_iff` says that this is the only
way.

Windowed and plain accumulators share one key space.  An accumulator of plain records is
safe exactly if its key does not read as that of a window (`plain_accumulator_iff`).
-/

namespace Weibo

open Function List Transducer

/-! ## One record -/

/-- The window end in the headers of a record. -/
def headerWindowEnd (tf : TimeFormat) (r : Record) : Option Int :=
  (r.headers.lookup "window_end").bind tf.parse

/-- Whether a record makes `Reduce` drop the accumulator of a key. -/
def evicts (tf : TimeFormat) (frontier : Int) (r : Record) (k : Bytes) : Bool :=
  match headerWindowEnd tf r, stateKeyWindowEnd tf k with
  | some stop, some windowEnd => decide (frontier < stop ∧ windowEnd < stop)
  | _, _ => false

/-- The frontier after a record. -/
def nextFrontier (tf : TimeFormat) (frontier : Int) (r : Record) : Int :=
  match headerWindowEnd tf r with
  | some stop => max frontier stop
  | none => frontier

/-- What becomes of the accumulator of a record's key. -/
def newAccum (fn : ReduceFn) (entries : Bytes → Option Bytes) (r : Record) : Bytes :=
  (fn (entries (stateKey r)) r).getD []

/-- The record that is emitted with a new accumulator. -/
def emitted (r : Record) (accum : Bytes) : Record :=
  { key := r.key, value := accum, timestamp := r.timestamp, offset := r.offset,
    headers := r.headers }

variable {tf : TimeFormat} {done : List (KeyOrder × Record)} {r : Record} {k : Bytes}
  {x : KeyOrder × Record} {kept : Bytes → Option Bytes} {s : ReduceState}

theorem evicts_eq_false_of_header (h : headerWindowEnd tf r = none) (frontier : Int) (k : Bytes) : evicts tf frontier r k = false := by
  rw [evicts, h]

theorem evicts_eq_false_of_key (h : stateKeyWindowEnd tf k = none) (frontier : Int) (r : Record) : evicts tf frontier r k = false := by
  rw [evicts, h]
  cases headerWindowEnd tf r <;> rfl

theorem evicts_iff {frontier stop windowEnd : Int}
    (hr : headerWindowEnd tf r = some stop) (hk : stateKeyWindowEnd tf k = some windowEnd) :
    evicts tf frontier r k = true ↔ frontier < stop ∧ windowEnd < stop := by
  rw [evicts, hr, hk]
  exact decide_eq_true_iff

theorem advanceWindowFrontier_eq (tf : TimeFormat) (s : ReduceState) (r : Record) :
    advanceWindowFrontier tf s r =
      ⟨fun k => if evicts tf s.windowFrontier r k then none else s.entries k,
        nextFrontier tf s.windowFrontier r⟩ := by
  cases hraw : r.headers.lookup "window_end" with
  | none =>
    have hheader : headerWindowEnd tf r = none := by rw [headerWindowEnd, hraw]; rfl
    simp [advanceWindowFrontier, hraw, nextFrontier, hheader, evicts_eq_false_of_header hheader]
  | some raw =>
    cases hparse : tf.parse raw with
    | none =>
      have hheader : headerWindowEnd tf r = none := by
        rw [headerWindowEnd, hraw]
        exact hparse
      simp [advanceWindowFrontier, hraw, hparse, nextFrontier, hheader,
        evicts_eq_false_of_header hheader]
    | some stop =>
      have hheader : headerWindowEnd tf r = some stop := by
        rw [headerWindowEnd, hraw]
        exact hparse
      simp only [advanceWindowFrontier, hraw, hparse, nextFrontier, hheader, evicts]
      -- only a later end moves the frontier and evicts
      by_cases hlt : s.windowFrontier < stop
      · rw [if_pos hlt, max_eq_right hlt.le, evictClosedWindows]
        congr 1
        funext k
        cases stateKeyWindowEnd tf k <;> simp [hlt]
      · rw [if_neg hlt, max_eq_left (by omega)]
        show ReduceState.mk s.entries s.windowFrontier = _
        congr 1
        funext k
        cases stateKeyWindowEnd tf k <;> simp [hlt]

/-- A data record: the accumulator of its key is replaced, and closed windows are dropped. -/
theorem reduceRecord_eq (tf : TimeFormat) (fn : ReduceFn) (s : ReduceState) (r : Record) :
    reduceRecord tf fn s r = (⟨fun k => if evicts tf s.windowFrontier r k then none
          else update s.entries (stateKey r) (some (newAccum fn s.entries r)) k,
        nextFrontier tf s.windowFrontier r⟩, [emitted r (newAccum fn s.entries r)]) := by
  rw [reduceRecord, advanceWindowFrontier_eq]
  rfl

/-! ## Reduce without eviction -/

/-- Merge a data record into its accumulator, and keep all others. -/
def retainRecord (fn : ReduceFn) (entries : Bytes → Option Bytes) (r : Record) :
    (Bytes → Option Bytes) × List Record :=
  (Function.update entries (stateKey r) (some (newAccum fn entries r)),
    [emitted r (newAccum fn entries r)])

/-- `ReduceOperator.Process` without `advanceWindowFrontier`. -/
abbrev retainLoop (fn : ReduceFn) : OperatorLoop where
  State := Bytes → Option Bytes
  step _ s r := if r.isWatermark then (s, [r]) else retainRecord fn s r
  flush _ _ := []
  observe s := some (.reduce s)
  passes _ := true
  passes_cut _ _ := rfl
  step_align _ s r hr := by
    rw [Record.isMarker_of_not_isCut hr]
    cases hw : r.isWatermark with
    | true => simp [Record.isMarker, hw]
    | false => simp [Record.isMarker, retainRecord, emitted]
  flush_align _ _ := rfl

theorem retainLoop_step_marker (fn : ReduceFn) (s : Bytes → Option Bytes)
    (hx : x.2.isMarker = true) :
    (retainLoop fn).toTransducer.step s x = (s, [x.2]) :=
  OperatorLoop.step_marker _ hx fun hw => if_pos hw

theorem retainLoop_step_data (fn : ReduceFn) (s : Bytes → Option Bytes)
    (hx : x.2.isMarker = false) :
    (retainLoop fn).toTransducer.step s x = retainRecord fn s x.2 := by
  rw [OperatorLoop.step_data _ hx]
  exact if_neg (by rw [(Bool.or_eq_false_iff.mp hx).2]; decide)

/-- The data records that a loop has read. -/
def dataRecords (done : List (KeyOrder × Record)) : List Record :=
  (done.map Prod.snd).filter Record.isData

theorem dataRecords_marker (hx : x.2.isMarker = true) (done : List (KeyOrder × Record)) : dataRecords (x :: done) = dataRecords done := by
  exact filter_cons_of_neg (by rw [Record.isMarker_eq_true.mp hx]; decide)

theorem dataRecords_data (hx : x.2.isMarker = false) (done : List (KeyOrder × Record)) : dataRecords (x :: done) = x.2 :: dataRecords done :=
  filter_cons_of_pos (Record.isMarker_eq_false.mp hx)

/-! ## Coming back to a dropped key -/

/-- Some record `c` has the key of an accumulator that an earlier record `b` has made `Reduce` drop:
    the key had been seen, before `b` or with `b`. -/
def ReturnsToEvicted (tf : TimeFormat) (frontier : Int) (seen : Bytes → Prop) (rs : List Record) :
    Prop :=
  ∃ rs₁ b rs₂ c, rs₁ ++ b :: (rs₂ ++ [c]) <+: rs ∧
    (seen (stateKey c) ∨ ∃ a ∈ rs₁ ++ [b], stateKey a = stateKey c) ∧
    evicts tf (rs₁.foldl (nextFrontier tf) frontier) b (stateKey c) = true

theorem not_returnsToEvicted_nil (tf : TimeFormat) (frontier : Int) (seen : Bytes → Prop) :
    ¬ ReturnsToEvicted tf frontier seen [] := by
  intro ⟨rs₁, b, rs₂, c, hpre, _⟩
  have := hpre.length_le
  simp at this

/-- Either the first record drops a key that comes back, or a later one does. -/
theorem returnsToEvicted_cons {frontier : Int} {seen : Bytes → Prop} {rs : List Record} :
    ReturnsToEvicted tf frontier seen (r :: rs) ↔
      (∃ c ∈ rs, (seen (stateKey c) ∨ stateKey r = stateKey c) ∧
        evicts tf frontier r (stateKey c) = true) ∨
      ReturnsToEvicted tf (nextFrontier tf frontier r) (fun k => seen k ∨ stateKey r = k) rs := by
  constructor
  · intro ⟨rs₁, b, rs₂, c, hpre, hseen, hevicts⟩
    cases rs₁ with
    -- the record that evicts is the first one
    | nil =>
      obtain ⟨rfl, htail⟩ := cons_prefix_cons.mp hpre
      have hc : c ∈ rs := htail.subset (mem_append_right _ (mem_singleton_self c))
      refine .inl ⟨c, hc, hseen.imp_right ?_, hevicts⟩
      intro ⟨a, ha, heq⟩
      rwa [mem_singleton.mp ha] at heq
    | cons a rs₁ =>
      obtain ⟨rfl, htail⟩ := cons_prefix_cons.mp hpre
      refine .inr ⟨rs₁, b, rs₂, c, htail, ?_, hevicts⟩
      rcases hseen with hseen | ⟨a', ha', heq⟩
      · exact .inl (.inl hseen)
      · cases mem_cons.mp ha' with
        | inl ha' => exact .inl (.inr (ha' ▸ heq))
        | inr ha' => exact .inr ⟨a', ha', heq⟩
  · rintro (⟨c, hc, hseen, hevicts⟩ | ⟨rs₁, b, rs₂, c, hpre, hseen, hevicts⟩)
    · obtain ⟨l₁, l₂, rfl⟩ := append_of_mem hc
      have hpre : [] ++ r :: (l₁ ++ [c]) <+: r :: (l₁ ++ c :: l₂) := ⟨l₂, by simp⟩
      exact ⟨[], r, l₁, c, hpre, hseen.imp_right fun heq => ⟨r, by simp, heq⟩, hevicts⟩
    · refine ⟨r :: rs₁, b, rs₂, c, cons_prefix_cons.mpr ⟨rfl, hpre⟩, ?_, hevicts⟩
      rcases hseen with (hseen | heq) | ⟨a, ha, heq⟩
      · exact .inl hseen
      · exact .inr ⟨r, by simp, heq⟩
      · exact .inr ⟨a, mem_cons_of_mem _ ha, heq⟩

section Runs

variable {tf : TimeFormat}

/-- If no dropped key comes back, `Reduce` emits the same with and without eviction. The
    accumulators agree on the keys that are still to come, and all that are kept have been seen. -/
theorem outs_eq_retain (fn : ReduceFn) (seen : Bytes → Prop)
    (hagree : ∀ c ∈ dataRecords done, s.entries (stateKey c) = kept (stateKey c))
    (hseen : ∀ k, (kept k).isSome → seen k)
    (hreturns : ¬ ReturnsToEvicted tf s.windowFrontier seen (dataRecords done)) :
    (reduceLoop tf fn).toTransducer.outs s done = (retainLoop fn).toTransducer.outs kept done := by
  induction done generalizing s kept seen with
  | nil => rfl
  | cons x done ih =>
    rw [outs, outs]
    cases hx : x.2.isMarker with
    | true =>
      rw [dataRecords_marker hx] at hagree hreturns
      rw [reduceLoop_step_marker tf fn s hx, retainLoop_step_marker fn kept hx,
        ih seen hagree hseen hreturns]
    | false =>
      rw [dataRecords_data hx] at hagree hreturns
      rw [returnsToEvicted_cons, not_or] at hreturns
      have hnew : newAccum fn s.entries x.2 = newAccum fn kept x.2 := by
        rw [newAccum, hagree x.2 mem_cons_self, newAccum]
      rw [reduceLoop_step_data tf fn s hx, retainLoop_step_data fn kept hx, reduceRecord_eq,
        retainRecord, hnew]
      refine congrArg _ (ih _ ?_ ?_ hreturns.2)
      · intro c hc
        have hold := hagree c (mem_cons_of_mem _ hc)
        have hupdate : update s.entries (stateKey x.2) (some (newAccum fn kept x.2)) (stateKey c) =
            update kept (stateKey x.2) (some (newAccum fn kept x.2)) (stateKey c) := by
          rw [update_apply, update_apply, hold]
        dsimp only
        split
        · -- what is dropped here and comes back has not been seen
          rename_i hevicts
          have hnot := fun hor => hreturns.1 ⟨c, hc, hor, hevicts⟩
          have hne : stateKey c ≠ stateKey x.2 := fun heq => hnot (.inr heq.symm)
          rw [update_of_ne hne]
          cases hkept : kept (stateKey c) with
          | none => rfl
          | some v => exact absurd (.inl (hseen _ (by rw [hkept]; rfl))) hnot
        · exact hupdate
      · intro k hk
        dsimp only at hk
        rw [update_apply] at hk
        split at hk
        · rename_i heq
          exact .inr heq.symm
        · exact .inl (hseen k hk)

/-! ## Counting -/

/-- How many records a counted accumulator stands for. -/
def weight : Option Bytes → ℕ
  | none => 0
  | some accum => accum.length + 1

/-- Counts the records of a key. -/
def countFn : ReduceFn := fun accum _ => some (List.replicate (weight accum) 0)

theorem weight_newAccum (entries : Bytes → Option Bytes) (r : Record) :
    (newAccum countFn entries r).length = weight (entries (stateKey r)) := by
  rw [newAccum, countFn, Option.getD_some, length_replicate]

/-- With fewer records counted for a key, the next record of the key shows it. -/
theorem outs_ne_of_weight_lt (hlt : weight (s.entries k) < weight (kept k)) {c : Record}
    (hc : c ∈ dataRecords done) (hkey : stateKey c = k) :
    (reduceLoop tf countFn).toTransducer.outs s done ≠
      (retainLoop countFn).toTransducer.outs kept done := by
  induction done generalizing s kept with
  | nil => cases hc
  | cons x done ih =>
    rw [outs, outs]
    cases hx : x.2.isMarker with
    | true =>
      rw [dataRecords_marker hx] at hc
      rw [reduceLoop_step_marker tf countFn s hx, retainLoop_step_marker countFn kept hx]
      exact fun heq => ih hlt hc (cons.inj heq).2
    | false =>
      rw [dataRecords_data hx] at hc
      rw [reduceLoop_step_data tf countFn s hx, retainLoop_step_data countFn kept hx,
        reduceRecord_eq, retainRecord]
      intro heq
      obtain ⟨hout, hrest⟩ := cons.inj heq
      by_cases hk : stateKey x.2 = k
      · -- this record carries the count
        have hvalue := congrArg (fun r : Record => r.value.length) hout
        change (newAccum countFn s.entries x.2).length = (newAccum countFn kept x.2).length at hvalue
        rw [weight_newAccum, weight_newAccum, hk] at hvalue
        omega
      · have hne : k ≠ stateKey x.2 := fun h => hk h.symm
        refine ih ?_ ((mem_cons.mp hc).resolve_left fun h => hk (h ▸ hkey)) hrest
        dsimp only
        rw [update_of_ne hne, update_of_ne hne]
        split
        · exact Nat.zero_lt_of_lt hlt
        · exact hlt

/-- If a dropped key comes back, counting shows it. Everything seen is kept. -/
theorem outs_ne_of_returns {seen : Bytes → Prop} (hseen : ∀ k, seen k → (kept k).isSome)
    (hreturns : ReturnsToEvicted tf s.windowFrontier seen (dataRecords done)) :
    (reduceLoop tf countFn).toTransducer.outs s done ≠
      (retainLoop countFn).toTransducer.outs kept done := by
  induction done generalizing s kept seen with
  | nil => exact absurd hreturns (not_returnsToEvicted_nil tf _ _)
  | cons x done ih =>
    rw [outs, outs]
    cases hx : x.2.isMarker with
    | true =>
      rw [dataRecords_marker hx] at hreturns
      rw [reduceLoop_step_marker tf countFn s hx, retainLoop_step_marker countFn kept hx]
      exact fun heq => ih hseen hreturns (cons.inj heq).2
    | false =>
      rw [dataRecords_data hx, returnsToEvicted_cons] at hreturns
      rw [reduceLoop_step_data tf countFn s hx, retainLoop_step_data countFn kept hx,
        reduceRecord_eq, retainRecord]
      have hkept : ∀ k, seen k ∨ stateKey x.2 = k → (update kept (stateKey x.2)
          (some (newAccum countFn kept x.2)) k).isSome := by
        intro k hk
        rw [update_apply]
        split
        · rfl
        · rename_i hne
          exact hseen k (hk.resolve_right fun h => hne h.symm)
      intro heq
      obtain ⟨_, hrest⟩ := cons.inj heq
      cases hreturns with
      | inl hfirst =>
        -- this record drops the key: from here on the count of the key is below the kept one
        obtain ⟨c, hc, hor, hevicts⟩ := hfirst
        refine outs_ne_of_weight_lt ?_ hc rfl hrest
        dsimp only
        rw [if_pos hevicts]
        obtain ⟨v, hv⟩ := Option.isSome_iff_exists.mp (hkept _ hor)
        rw [hv]
        exact Nat.succ_pos _
      | inr hlater => exact ih hkept hlater hrest

end Runs

/-- On an input `done`, in whatever state `Reduce` is, it emits the same with and without eviction,
    whatever it computes, exactly if no record comes back to a key whose accumulator has been
    dropped. -/
theorem eviction_visible_iff (tf : TimeFormat) (s : ReduceState) (done : List (KeyOrder × Record)) :
    (∀ fn, (reduceLoop tf fn).toTransducer.outs s done =
        (retainLoop fn).toTransducer.outs s.entries done) ↔
      ¬ ReturnsToEvicted tf s.windowFrontier (fun k => (s.entries k).isSome)
        (dataRecords done) := by
  constructor
  · intro heq hreturns
    exact outs_ne_of_returns (fun _ => id) hreturns (heq countFn)
  · intro hreturns fn
    exact outs_eq_retain fn _ (fun _ _ => rfl) (fun _ => id) hreturns

/-! ## Plain records -/

/-- The record has the bounds of a window in its headers. -/
def Windowed (tf : TimeFormat) (r : Record) : Prop :=
  ∃ start stop, r.headers.lookup "window_start" = some (tf.format start) ∧
    r.headers.lookup "window_end" = some (tf.format stop)

theorem stateKey_windowed {start stop : Int}
    (hstart : r.headers.lookup "window_start" = some (tf.format start))
    (hstop : r.headers.lookup "window_end" = some (tf.format stop)) :
    stateKey r = (⟨r.key, start, stop⟩ : WindowKey).string tf := by
  rw [stateKey, hstart, hstop]
  rfl

theorem headerWindowEnd_windowed {stop : Int}
    (hstop : r.headers.lookup "window_end" = some (tf.format stop)) :
    headerWindowEnd tf r = some stop := by
  rw [headerWindowEnd, hstop]
  exact tf.parse_format stop

theorem tagWithWindow_start (tf : TimeFormat) (r : Record) (win : Window) :
    (tagWithWindow tf r win).headers.lookup "window_start" = some (tf.format win.start) := by
  rw [tagWithWindow, AList.lookup_insert_ne (by decide), AList.lookup_insert]

theorem tagWithWindow_stop (tf : TimeFormat) (r : Record) (win : Window) :
    (tagWithWindow tf r win).headers.lookup "window_end" = some (tf.format win.stop) := by
  rw [tagWithWindow, AList.lookup_insert]

instance (r : Record) : Decidable (Unwindowed r) := inferInstanceAs (Decidable (_ ∧ _))

/-- The plain records of a key. -/
def plainRecords (k : Bytes) (rs : List Record) : List Record :=
  rs.filter fun r => decide (Unwindowed r ∧ r.key = k)

theorem plainRecords_plain (hr : Unwindowed r) (rs : List Record) :
    plainRecords k (r :: rs) = if r.key = k then r :: plainRecords k rs else plainRecords k rs := by
  split
  case isTrue heq => exact filter_cons_of_pos (decide_eq_true ⟨hr, heq⟩)
  case isFalse heq => exact filter_cons_of_neg fun h => heq (of_decide_eq_true h).2

theorem plainRecords_windowed (hr : Windowed tf r) (rs : List Record) : plainRecords k (r :: rs) = plainRecords k rs := by
  obtain ⟨start, stop, hstart, _⟩ := hr
  refine filter_cons_of_neg fun h => ?_
  have hnone := (of_decide_eq_true h).1.1
  rw [hstart] at hnone
  simp at hnone

/-- What the plain records of a key make of an accumulator. -/
def plainFold (fn : ReduceFn) (accum : Option Bytes) (rs : List Record) : Option Bytes :=
  rs.foldl (fun accum r => some ((fn accum r).getD [])) accum

/-- A record of another window leaves the accumulator of a key alone that does not read as a
    window's, and so does a plain record of another key. -/
theorem reduceRecord_entries_of_plain (hk : stateKeyWindowEnd tf k = none) (fn : ReduceFn)
    (s : ReduceState) (hr : Unwindowed r ∨ Windowed tf r) (rs : List Record) :
    plainFold fn ((reduceRecord tf fn s r).1.entries k) (plainRecords k rs) =
      plainFold fn (s.entries k) (plainRecords k (r :: rs)) := by
  rw [reduceRecord_eq]
  dsimp only
  rw [evicts_eq_false_of_key hk, if_neg (by decide), newAccum]
  cases hr with
  | inl hplain =>
    rw [stateKey_of_no_window hplain.1, plainRecords_plain hplain]
    by_cases heq : r.key = k
    · rw [if_pos heq, heq, update_self]
      rfl
    · rw [if_neg heq, update_of_ne fun h => heq h.symm]
  | inr hwindowed =>
    have ⟨start, stop, hstart, hstop⟩ := hwindowed
    -- the state key of a windowed record reads as a window's
    have hne : k ≠ stateKey r := by
      intro heq
      rw [heq, stateKey_windowed hstart hstop, stateKeyWindowEnd_string] at hk
      simp at hk
    rw [plainRecords_windowed hwindowed, update_of_ne hne]

/-- Over a whole run. -/
theorem state_entries_of_plain (hk : stateKeyWindowEnd tf k = none) (fn : ReduceFn)
    (s : ReduceState) (hdone : ∀ r ∈ dataRecords done, Unwindowed r ∨ Windowed tf r) :
    ((reduceLoop tf fn).toTransducer.state s done).entries k =
      plainFold fn (s.entries k) (plainRecords k (dataRecords done)) := by
  induction done generalizing s with
  | nil => rfl
  | cons x done ih =>
    rw [state]
    cases hx : x.2.isMarker with
    | true =>
      rw [dataRecords_marker hx] at hdone ⊢
      rw [reduceLoop_step_marker tf fn s hx, ih s hdone]
    | false =>
      rw [dataRecords_data hx] at hdone ⊢
      obtain ⟨hr, hrest⟩ := forall_mem_cons.mp hdone
      rw [reduceLoop_step_data tf fn s hx, ih _ hrest, reduceRecord_entries_of_plain hk fn s hr]

/-- A plain record of a key that reads as a window's, and a window that ends after it. -/
def plainThenWindow (tf : TimeFormat) (k : Bytes) (windowEnd : Int) : List (KeyOrder × Record) :=
  let stop := max windowEnd zeroTime + 1
  let order : KeyOrder := ⟨id, fun l => List.Perm.refl l⟩
  [(order, { key := k }), (order, tagWithWindow tf {} ⟨stop - 1, stop⟩)]

theorem plainThenWindow_drops {windowEnd : Int}
    (hk : stateKeyWindowEnd tf k = some windowEnd) (fn : ReduceFn) :
    ((reduceLoop tf fn).toTransducer.state freshReduce
      (plainThenWindow tf k windowEnd)).entries k = none := by
  have hevicts : evicts tf zeroTime (tagWithWindow tf {} ⟨max windowEnd zeroTime,
      max windowEnd zeroTime + 1⟩) k = true := by
    rw [evicts_iff (headerWindowEnd_windowed (tagWithWindow_stop tf _ _)) hk]
    dsimp only
    omega
  have hstop : max windowEnd zeroTime + 1 - 1 = max windowEnd zeroTime := by omega
  rw [plainThenWindow, state, state, state,
    reduceLoop_step_data tf fn _ rfl, reduceLoop_step_data tf fn _ rfl, reduceRecord_eq,
    reduceRecord_eq, hstop]
  exact if_pos hevicts

/-- The accumulator of a key that is fed by plain records is, in every mix of plain and windowed
    records, the fold of the key's plain records, exactly if the key does not read as that of a
    window. -/
theorem plain_accumulator_iff (tf : TimeFormat) (k : Bytes) :
    (∀ (fn : ReduceFn) (done : List (KeyOrder × Record)),
      (∀ r ∈ dataRecords done, Unwindowed r ∨ Windowed tf r) →
      plainRecords k (dataRecords done) ≠ [] →
      ((reduceLoop tf fn).toTransducer.state freshReduce done).entries k =
        plainFold fn none (plainRecords k (dataRecords done))) ↔
      stateKeyWindowEnd tf k = none := by
  constructor
  · intro hfold
    cases hk : stateKeyWindowEnd tf k with
    | none => rfl
    | some windowEnd =>
      -- the plain record's accumulator is dropped when the frontier passes the end read from its key
      have hdata : dataRecords (plainThenWindow tf k windowEnd) =
          (plainThenWindow tf k windowEnd).map Prod.snd := rfl
      have htagged : ∀ win, Windowed tf (tagWithWindow tf {} win) := fun win =>
        ⟨_, _, tagWithWindow_start tf _ win, tagWithWindow_stop tf _ win⟩
      have hplain : plainRecords k (dataRecords (plainThenWindow tf k windowEnd)) =
          [{ key := k }] := by
        rw [hdata, plainThenWindow, map_cons, map_cons, map_nil,
          plainRecords_plain ⟨rfl, rfl⟩, if_pos rfl, plainRecords_windowed (htagged _)]
        rfl
      have hmix : ∀ r ∈ dataRecords (plainThenWindow tf k windowEnd),
          Unwindowed r ∨ Windowed tf r := by
        intro r hr
        rw [hdata] at hr
        cases mem_cons.mp hr with
        | inl heq => exact heq ▸ .inl ⟨rfl, rfl⟩
        | inr hr => exact mem_singleton.mp hr ▸ .inr (htagged _)
      have h := hfold (fun _ _ => none) _ hmix (by rw [hplain]; exact cons_ne_nil _ _)
      rw [plainThenWindow_drops hk, hplain] at h
      simp [plainFold] at h
  · intro hk fn done hdone _
    exact state_entries_of_plain hk fn freshReduce hdone

/-- Records of the plain key `a/0/1` and of the key `a` in the window from 0 to 1 share an
    accumulator, and a record of the window from 1 to 2 drops it. -/
theorem plain_key_read_as_window :
    let tf := CutRun.unaryFormat
    let order : KeyOrder := ⟨id, fun l => List.Perm.refl l⟩
    let plain : Record := { key := [97] ++ slash :: tf.format 0 ++ slash :: tf.format 1 }
    let tagged (start stop : Int) : Record := tagWithWindow tf { key := [97] } ⟨start, stop⟩
    let accum (rs : List Record) :=
      ((reduceLoop tf countFn).toTransducer.state freshReduce (rs.map (Prod.mk order))).entries
        plain.key
    Unwindowed plain ∧ accum [plain] = some [] ∧ accum [plain, tagged 0 1] = some [0] ∧
      accum [plain, tagged 1 2] = none := by
  decide

end Weibo
