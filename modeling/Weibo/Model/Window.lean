import Mathlib.Algebra.Group.Int.Defs
import Weibo.ForStd.Utf8
import Weibo.Model.ListState
import Weibo.Model.Operator

/-!
# The window operator (`operator/window.go`)

Data records are buffered per key and window until a watermark passes the
window's end; then the window fires, either record by record or reduced to one
result.  The buffers live in the state backend under the string
`key/start/end`, from which the window's bounds are parsed back.  Watermarks are
consumed: none leaves the operator.
-/

namespace Weibo

/-- A time range, `start` included and `stop` (`End` in the source) not. -/
structure Window where
  start : Int
  stop : Int
deriving DecidableEq

/-- Which windows a timestamp falls into, and whether they merge. -/
structure WindowAssigner where
  assignWindows : Int → List Window
  isSession : Bool

/-! ## Assigners (`window/tumbling.go`, `window/sliding.go`, `window/session.go`) -/

/-- The start of the aligned window of a time. The division truncates towards zero. -/
def windowStart (ts size offset : Int) : Int := (ts - offset).tdiv size * size + offset

/-- Windows of one size, side by side. -/
def tumbling (size offset : Int) : WindowAssigner where
  assignWindows ts :=
    let start := windowStart ts size offset
    [⟨start, start + size⟩]
  isSession := false

/-- Windows that start at `start` or some slides before it. -/
def slideBackward (size slide : Int) (pos : 0 < slide) (ts start : Int) : List Window :=
  if ts < start + size then
    (if start ≤ ts then [⟨start, start + size⟩] else []) ++
      slideBackward size slide pos ts (start - slide)
  else []
termination_by (start + size - ts).toNat
decreasing_by omega

/-- Windows that start at `start` or some slides after it. -/
def slideForward (size slide : Int) (pos : 0 < slide) (ts start : Int) : List Window :=
  if start < ts + size then
    (if start ≤ ts ∧ ts < start + size then [⟨start, start + size⟩] else []) ++
      slideForward size slide pos ts (start + slide)
  else []
termination_by (ts + size - start).toNat
decreasing_by omega

/-- Windows of one size, one slide apart. -/
def sliding (size slide offset : Int) (pos : 0 < slide) : WindowAssigner where
  assignWindows ts :=
    let lastStart := windowStart ts slide offset
    match slideBackward size slide pos ts lastStart ++
        slideForward size slide pos ts (lastStart + slide) with
    -- at least the aligned slot
    | [] => [⟨lastStart, lastStart + size⟩]
    | windows => windows
  isSession := false

/-- A window from each record on, merged with those it overlaps. -/
def session (gap : Int) : WindowAssigner where
  assignWindows ts := [⟨ts, ts + gap⟩]
  isSession := true

/-! ## Window keys -/

/-- A window of one key. -/
structure WindowKey where
  key : Bytes
  start : Int
  stop : Int
deriving DecidableEq

def toWindowKey (key : Bytes) (win : Window) : WindowKey := ⟨key, win.start, win.stop⟩

/-- The backend key of a window. -/
def WindowKey.string (tf : TimeFormat) (k : WindowKey) : Bytes :=
  k.key ++ slash :: tf.format k.start ++ slash :: tf.format k.stop

/-- `UnixNano` of the zero time, which is out of the range of `int64` and wraps. -/
def zeroUnixNano : Int := -6795364578871345152

/-- The window of a backend key. The record key may hold slashes itself, so the bounds are the last
    two fields; a bound that does not parse is the zero time. -/
def parseWindowKey (tf : TimeFormat) (s : Bytes) : WindowKey :=
  match splitLastSlash s with
  | none => ⟨[], 0, 0⟩
  | some (rest, stop) =>
    match splitLastSlash rest with
    | none => ⟨[], 0, 0⟩
    | some (key, start) =>
      ⟨key, (tf.parse start).getD zeroUnixNano, (tf.parse stop).getD zeroUnixNano⟩

/-! ## State -/

/-- The buffered records per window. -/
abbrev WindowBuffers := AList fun _ : Bytes => List Record

/-- The buffers and the current watermark. -/
structure WindowState where
  windows : WindowBuffers
  currentWatermark : Int

/-- A window operator before its first record. -/
def freshWindows : WindowState := ⟨∅, zeroTime⟩

/-- A record as it is stored: partition and flags are dropped. -/
def storedRecord (r : Record) : Record :=
  { key := r.key, value := r.value, timestamp := r.timestamp, offset := r.offset,
    headers := r.headers }

/-- The records buffered under a key, none if there is no such buffer. -/
def WindowBuffers.getAll (ws : WindowBuffers) (k : Bytes) : List Record := (ws.lookup k).getD []

/-- Append records to the buffer of a key. -/
def WindowBuffers.append (ws : WindowBuffers) (k : Bytes) (rs : List Record) : WindowBuffers :=
  ws.insert k (ws.getAll k ++ rs)

/-- The sessions of a key that overlap a window, in the order of enumeration. -/
def overlapping (tf : TimeFormat) (order : KeyOrder) (ws : WindowBuffers) (key : Bytes)
    (win : Window) : List Bytes :=
  (order.1 ws.keys).filter fun existing =>
    let ek := parseWindowKey tf existing
    ek.key == key && decide (win.start < ek.stop) && decide (ek.start < win.stop)

/-- Put a record into a window. A session window is first merged with every session of the key that
    it overlaps. -/
def assignToWindow (tf : TimeFormat) (assigner : WindowAssigner) (order : KeyOrder)
    (ws : WindowBuffers) (key : Bytes) (win : Window) (r : Record) : WindowBuffers :=
  let toRemove := if assigner.isSession then overlapping tf order ws key win else []
  if toRemove = [] then ws.append ((toWindowKey key win).string tf) [r]
  else
    -- the merged session spans all of them and the new window
    let newStart := toRemove.foldl (fun t k => min t (parseWindowKey tf k).start) win.start
    let newStop := toRemove.foldl (fun t k => max t (parseWindowKey tf k).stop) win.stop
    let merged := toRemove.flatMap ws.getAll
    (toRemove.foldl (fun ws k => ws.erase k) ws).append
      ((toWindowKey key ⟨newStart, newStop⟩).string tf) (merged ++ [r])

/-- Buffer a record in each of its windows. -/
def handleDataRecord (tf : TimeFormat) (assigner : WindowAssigner) (order : KeyOrder)
    (ws : WindowBuffers) (r : Record) : WindowBuffers :=
  (assigner.assignWindows r.timestamp).foldl
    (fun ws win => assignToWindow tf assigner order ws r.key win (storedRecord r)) ws

/-! ## Firing -/

/-- A record with the bounds of its window in the headers. -/
def tagWithWindow (tf : TimeFormat) (r : Record) (win : Window) : Record :=
  { key := r.key, value := r.value, timestamp := r.timestamp, offset := r.offset,
    headers := (r.headers.insert "window_start" (tf.format win.start)).insert "window_end"
      (tf.format win.stop) }

/-- What a window emits: all its records, or with a reducer one aggregate that takes key, time,
    offset and headers from the last record. -/
def fireWindow (tf : TimeFormat) (reducer : Option ReduceFn) (ws : WindowBuffers)
    (keyStr : Bytes) : List Record :=
  let wk := parseWindowKey tf keyStr
  let win : Window := ⟨wk.start, wk.stop⟩
  let entries := ws.getAll keyStr
  match reducer with
  | some fn =>
    match entries.getLast? with
    | some last =>
      [tagWithWindow tf
        { last with value := (entries.foldl (fun accum r => fn accum r) none).getD [] } win]
    | none => []
  | none => entries.map fun r => tagWithWindow tf r win

/-- Fire windows one after the other, clearing each. -/
def fireAll (tf : TimeFormat) (reducer : Option ReduceFn) :
    List Bytes → WindowBuffers → WindowBuffers × List Record
  | [], ws => (ws, [])
  | k :: ks, ws =>
    let rest := fireAll tf reducer ks (ws.erase k)
    (rest.1, fireWindow tf reducer ws k ++ rest.2)

/-- Advance the watermark and fire every window that ends at or before it. -/
def handleWatermark (tf : TimeFormat) (reducer : Option ReduceFn) (order : KeyOrder)
    (s : WindowState) (wm : Record) : WindowState × List Record :=
  -- watermarks never move back
  let currentWatermark := max s.currentWatermark wm.timestamp
  let closed := (order.1 s.windows.keys).filter fun k =>
    decide ((parseWindowKey tf k).stop ≤ currentWatermark)
  let r := fireAll tf reducer closed s.windows
  (⟨r.1, currentWatermark⟩, r.2)

/-- Fire all windows, at the end of the input or after the idle timeout. -/
def flushRemaining (tf : TimeFormat) (reducer : Option ReduceFn) (order : KeyOrder)
    (s : WindowState) : List Record :=
  (fireAll tf reducer (order.1 s.windows.keys) s.windows).2

/-- Buffer a data record unless it is late. -/
def windowRecord (tf : TimeFormat) (assigner : WindowAssigner) (order : KeyOrder)
    (s : WindowState) (r : Record) : WindowState :=
  -- before the first watermark nothing is late
  if s.currentWatermark ≠ zeroTime ∧ r.timestamp < s.currentWatermark then s
  else { s with windows := handleDataRecord tf assigner order s.windows r }

/-! ## Restoring -/

/-- `UnixNano`: an `int64`, which wraps outside the years 1678 to 2262. -/
def unixNano (t : Int) : Int := (t + 2 ^ 63) % 2 ^ 64 - 2 ^ 63

theorem unixNano_zeroTime : unixNano zeroTime = zeroUnixNano := by decide

theorem unixNano_eq {t : Int} (h : -2 ^ 63 ≤ t) (h' : t < 2 ^ 63) : unixNano t = t := by
  rw [unixNano, Int.emod_eq_of_lt (by omega) (by omega)]
  omega

/-- `Restore` of what `Snapshot` wrote, on an empty backend: the watermark as its `UnixNano`, and
    the buffers in a JSON object with the backend's keys as member names, of which each record is
    appended. -/
def restoreWindow (currentWatermark : Int) (windows : WindowBuffers) : WindowState :=
  let read : WindowBuffers := Utf8.jsonMap windows
  ⟨read.keys.foldl (fun ws k => (read.getAll k).foldl (fun ws r => ws.append k [r]) ws) ∅,
    unixNano currentWatermark⟩

/-- The number that some bytes make, the highest first. -/
def fromBigEndian (b : Bytes) : ℕ := b.foldl (fun n c => n * 256 + c.toNat) 0

/-- What `storeWatermark` puts into the backend: the bytes of the `UnixNano`. -/
def storeWatermark (t : Int) : Bytes := bigEndian 8 (unixNano t % 2 ^ 64).toNat

/-- The watermark that a loop starts with: what the backend holds, or the zero time if that is not
    eight bytes. -/
def loadWatermark (stored : Option Bytes) : Int :=
  match stored with
  | some b => if b.length = 8 then unixNano (fromBigEndian b) else zeroTime
  | none => zeroTime

/-! ## The operator -/

@[simp] theorem tagWithWindow_isMarker (tf : TimeFormat) (r : Record) (win : Window) :
    (tagWithWindow tf r win).isMarker = false := rfl

theorem fireWindow_isMarker (tf : TimeFormat) (reducer : Option ReduceFn) (ws : WindowBuffers)
    (k : Bytes) : ∀ r ∈ fireWindow tf reducer ws k, r.isMarker = false := by
  intro r hr
  cases reducer with
  | some fn =>
    dsimp only [fireWindow] at hr
    split at hr
    · rw [List.mem_singleton.mp hr, tagWithWindow_isMarker]
    · simp at hr
  | none =>
    obtain ⟨x, -, rfl⟩ := List.mem_map.mp hr
    exact tagWithWindow_isMarker tf x _

/-- Windows fire data records only. -/
theorem fireAll_isMarker (tf : TimeFormat) (reducer : Option ReduceFn) (ks : List Bytes)
    (ws : WindowBuffers) : ∀ r ∈ (fireAll tf reducer ks ws).2, r.isMarker = false := by
  induction ks generalizing ws with
  | nil => exact fun r hr => absurd hr (by simp [fireAll])
  | cons k ks ih =>
    intro r hr
    rcases List.mem_append.mp hr with hr | hr
    · exact fireWindow_isMarker tf reducer ws k r hr
    · exact ih (ws.erase k) r hr

/-- Only data records fire. -/
theorem fireAll_isData (tf : TimeFormat) (reducer : Option ReduceFn) (ks : List Bytes)
    (ws : WindowBuffers) :
    (fireAll tf reducer ks ws).2.filter Record.isData = (fireAll tf reducer ks ws).2 := by
  rw [List.filter_eq_self]
  intro r hr
  exact Record.isMarker_eq_false.mp (fireAll_isMarker tf reducer ks ws r hr)

/-- `WindowOperator.Process`. -/
abbrev windowLoop (tf : TimeFormat) (assigner : WindowAssigner) (reducer : Option ReduceFn) :
    OperatorLoop where
  State := WindowState
  step order s r :=
    if r.isWatermark then handleWatermark tf reducer order s r
    else (windowRecord tf assigner order s r, [])
  flush order s := flushRemaining tf reducer order s
  observe s := some (.window s.currentWatermark s.windows)
  passes r := !r.isWatermark
  passes_cut r hr := (Bool.and_eq_true_iff.mp hr).2
  step_align order s r hr := by
    rw [Record.isMarker_of_not_isCut hr]
    cases hw : r.isWatermark with
    | true => exact filter_isMarker_eq_nil (fireAll_isMarker tf reducer _ s.windows)
    | false => rfl
  flush_align order s := filter_isMarker_eq_nil (fireAll_isMarker tf reducer _ s.windows)

/-- The state of the operator together with the watermark in its backend. -/
structure DurableWindow where
  state : WindowState
  stored : Option Bytes

/-- A watermark is stored when it advances. -/
def durableStep (tf : TimeFormat) (assigner : WindowAssigner) (reducer : Option ReduceFn)
    (s : DurableWindow) (x : KeyOrder × Record) : DurableWindow where
  state := ((windowLoop tf assigner reducer).toTransducer.step s.state x).1
  stored :=
    if x.2.isWatermark ∧ s.state.currentWatermark < x.2.timestamp then
      some (storeWatermark x.2.timestamp)
    else s.stored

/-- The operator on a backend as it was left. -/
def DurableWindow.reload (s : DurableWindow) : WindowState :=
  ⟨s.state.windows, loadWatermark s.stored⟩

end Weibo
