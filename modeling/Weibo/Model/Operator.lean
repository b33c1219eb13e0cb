import Mathlib.Data.List.Perm.Basic
import Weibo.ForStd.Machine
import Weibo.Model.Record

/-!
# Operators (`operator/*.go`)

A stateful operator runs a `Process` loop over its input channel: it forwards a barrier right after
handing its state to the barrier callback, and everything else is a step on its state. That loop is
a `Machine` with barriers as cuts. Stateless operators are functions from a record to the records it
becomes; a stage runs a list of them as one machine without state.

`ReduceOperator` (`operator/reduce.go`) keeps one accumulator per key, or per
key and window if the record carries window bounds, and evicts the accumulators
of windows that have closed.  The window operator is in `Weibo.Model.Window`.
-/

namespace Weibo

/-! ## Times and keys -/

/-- Go's `time.Time{}` on the scale of nanoseconds since the Unix epoch. -/
def zeroTime : Int := -62135596800000000000

/-- `Format` and `Parse` of Go's `time` package for the layout RFC3339Nano. Only what the operators
    rely on is fixed: a formatted time parses back, holds no slash and is ASCII. -/
structure TimeFormat where
  format : Int → Bytes
  parse : Bytes → Option Int
  parse_format : ∀ t, parse (format t) = some t
  slash_notMem_format : ∀ t, (47 : UInt8) ∉ format t
  ascii_format : ∀ t, ∀ b ∈ format t, b < 0x80

/-- The byte `/`. -/
def slash : UInt8 := 47

/-- Split a string at its last slash. -/
def splitLastSlash (s : Bytes) : Option (Bytes × Bytes) :=
  match s.reverse.dropWhile (· != slash) with
  | [] => none
  | _ :: before => some (before.reverse, (s.reverse.takeWhile (· != slash)).reverse)

/-- An order in which a backend enumerates its keys: any order for the memory backend, ascending
    order for Pebble. -/
abbrev KeyOrder := { f : List Bytes → List Bytes // ∀ l, (f l).Perm l }

/-- What a stateful operator hands to its barrier callback: the content of its state backend. -/
inductive OperatorSnapshot where
  | reduce (entries : Bytes → Option Bytes)
  | window (currentWatermark : Int) (windows : AList fun _ : Bytes => List Record)

/-- A `Process` loop. A stateless one has nothing to hand to a callback. -/
abbrev OperatorLoop :=
  Machine KeyOrder Record (Option OperatorSnapshot) Record.isCut Record.isMarker

namespace OperatorLoop

variable (M : OperatorLoop) {s : M.State} {x : KeyOrder × Record}

/-- An operator that hands watermarks on hands all markers on. -/
theorem step_marker (hx : x.2.isMarker = true)
    (hwatermark : x.2.isWatermark = true → M.step x.1 s x.2 = (s, [x.2])) :
    M.toTransducer.step s x = (s, [x.2]) := by
  cases hcut : x.2.isCut with
  | true => exact Machine.toTransducer_step_cut _ hcut
  | false =>
    rw [Machine.toTransducer_step_of_not_cut _ hcut]
    exact hwatermark (Record.isMarker_of_not_isCut hcut ▸ hx)

theorem step_watermark (hx : x.2.isWatermark = true) :
    M.toTransducer.step s x = M.step x.1 s x.2 := by
  apply Machine.toTransducer_step_of_not_cut
  rw [Record.isCut, hx, Bool.not_true, Bool.and_false]

theorem step_data (hx : x.2.isMarker = false) : M.toTransducer.step s x = M.step x.1 s x.2 := by
  apply Machine.toTransducer_step_of_not_cut
  rw [Record.isCut, (Bool.or_eq_false_iff.mp hx).1, Bool.false_and]

end OperatorLoop

/-! ## Stateless operators -/

/-- A stateless operator: what each data record becomes. It makes no markers. -/
structure SingleProcessor where
  processOne : Record → List Record
  processOne_isMarker : ∀ r, ∀ r' ∈ processOne r, r'.isMarker = false

/-- A data record through a chain of stateless operators. -/
def processChain (ops : List SingleProcessor) (r : Record) : List Record :=
  ops.foldl (fun cur sp => cur.flatMap sp.processOne) [r]

theorem processChain_isMarker (ops : List SingleProcessor) {r : Record} (h : r.isMarker = false) :
    ∀ r' ∈ processChain ops r, r'.isMarker = false := by
  have hfold : ∀ cur : List Record, (∀ r' ∈ cur, r'.isMarker = false) →
      ∀ r' ∈ ops.foldl (fun cur sp => cur.flatMap sp.processOne) cur, r'.isMarker = false := by
    induction ops with
    | nil => exact fun cur hcur => hcur
    | cons sp ops ih =>
      intro cur _
      apply ih
      intro r' hr'
      obtain ⟨x, -, hx⟩ := List.mem_flatMap.mp hr'
      exact sp.processOne_isMarker x r' hx
  apply hfold
  intro r' hr'
  rw [List.mem_singleton.mp hr']
  exact h

/-- A list without markers shows none. -/
theorem filter_isMarker_eq_nil {rs : List Record} (h : ∀ r ∈ rs, r.isMarker = false) :
    rs.filter Record.isMarker = [] := by
  rw [List.filter_eq_nil_iff]
  intro r hr
  rw [h r hr]
  decide

/-- The worker loop of a stateless stage: markers are forwarded as they are. -/
abbrev statelessLoop (ops : List SingleProcessor) : OperatorLoop where
  State := Unit
  step _ _ r := ((), if r.isMarker then [r] else processChain ops r)
  flush _ _ := []
  observe _ := none
  passes _ := true
  passes_cut _ _ := rfl
  step_align _ _ r _ := by
    cases h : r.isMarker with
    | true => simp [h]
    | false => simpa [h] using processChain_isMarker ops h
  flush_align _ _ := rfl

/-! ## Reduce -/

/-- Takes the accumulator and a record to the new accumulator; a nil slice is `none`. -/
abbrev ReduceFn := Option Bytes → Record → Option Bytes

/-- The accumulators, and the highest window end seen so far. -/
structure ReduceState where
  entries : Bytes → Option Bytes
  windowFrontier : Int

/-- A `ReduceOperator` that has seen nothing. -/
def freshReduce : ReduceState := ⟨fun _ => none, zeroTime⟩

/-- The key of a record's accumulator. -/
def stateKey (r : Record) : Bytes :=
  match r.headers.lookup "window_start" with
  | some ws => r.key ++ slash :: ws ++ slash :: (r.headers.lookup "window_end").getD []
  | none => r.key

/-- The window end in a key, if the last two fields of it are times. -/
def stateKeyWindowEnd (tf : TimeFormat) (sk : Bytes) : Option Int := do
  let (rest, last) ← splitLastSlash sk
  let (_, prev) ← splitLastSlash rest
  let _ ← tf.parse prev
  tf.parse last

/-- Drop the accumulators of all windows that ended before the frontier. -/
def evictClosedWindows (tf : TimeFormat) (s : ReduceState) : ReduceState :=
  { s with
    entries := fun k =>
      match stateKeyWindowEnd tf k with
      -- only keys with two parsable bounds belong to a window
      | some windowEnd => if windowEnd < s.windowFrontier then none else s.entries k
      | none => s.entries k }

/-- Follow the window end of a record, evicting when it moves on. -/
def advanceWindowFrontier (tf : TimeFormat) (s : ReduceState) (r : Record) : ReduceState :=
  match r.headers.lookup "window_end" with
  | none => s
  | some raw =>
    match tf.parse raw with
    | none => s
    | some windowEnd =>
      if s.windowFrontier < windowEnd then
        evictClosedWindows tf { s with windowFrontier := windowEnd }
      else s

/-- Merge a data record into its accumulator and emit the result. The backend gives a stored nil
    slice back as an empty one. -/
def reduceRecord (tf : TimeFormat) (fn : ReduceFn) (s : ReduceState) (r : Record) :
    ReduceState × List Record :=
  -- the emitted record carries neither the partition nor the flags
  let newAccum := (fn (s.entries (stateKey r)) r).getD []
  (advanceWindowFrontier tf
      { s with entries := Function.update s.entries (stateKey r) (some newAccum) } r,
    [{ key := r.key, value := newAccum, timestamp := r.timestamp, offset := r.offset,
       headers := r.headers }])

/-- `ReduceOperator.Process`: watermarks are forwarded. -/
abbrev reduceLoop (tf : TimeFormat) (fn : ReduceFn) : OperatorLoop where
  State := ReduceState
  step _ s r := if r.isWatermark then (s, [r]) else reduceRecord tf fn s r
  flush _ _ := []
  observe s := some (.reduce s.entries)
  passes _ := true
  passes_cut _ _ := rfl
  step_align _ s r hr := by
    rw [Record.isMarker_of_not_isCut hr]
    cases hw : r.isWatermark with
    | true => simp [Record.isMarker, hw]
    | false => simp [Record.isMarker, reduceRecord]
  flush_align _ _ := rfl

/-- A record without window bounds has its key as its accumulator's key. -/
theorem stateKey_of_no_window {r : Record} (h : r.headers.lookup "window_start" = none) :
    stateKey r = r.key := by
  rw [stateKey, h]

/-- A record without window bounds changes its key's accumulator only. -/
theorem reduceRecord_of_no_window (tf : TimeFormat) (fn : ReduceFn) (s : ReduceState) {r : Record}
    (hs : r.headers.lookup "window_start" = none) (he : r.headers.lookup "window_end" = none) :
    (reduceRecord tf fn s r).1.entries =
      Function.update s.entries r.key (some ((fn (s.entries r.key) r).getD [])) := by
  rw [reduceRecord, stateKey_of_no_window hs, advanceWindowFrontier, he]

end Weibo
