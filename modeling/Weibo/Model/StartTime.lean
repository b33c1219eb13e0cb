import Mathlib.Data.Nat.Log
import Mathlib.Data.Prod.Lex
import Weibo.ForStd.Decimal
import Weibo.Model.JobStore

/-!
# Start times (`control/store/sqlite.go`)

The store keeps `Started` as the text that `time.RFC3339Nano` gives for it, and
SQLite compares texts byte by byte.  All their characters are ASCII, so this is the
order of lists of characters.
-/

namespace Weibo.Control

/-- A `time.Time` in UTC. -/
structure UtcTime where
  year : ℤ
  month : ℕ
  day : ℕ
  hour : ℕ
  minute : ℕ
  second : ℕ
  nanosecond : ℕ
  month_mem : 1 ≤ month ∧ month ≤ 12
  day_mem : 1 ≤ day ∧ day ≤ 31
  hour_lt : hour < 24
  minute_lt : minute < 60
  second_lt : second < 60
  nanosecond_lt : nanosecond < 10 ^ 9
deriving DecidableEq

namespace UtcTime

/-- The second in which a time lies; seconds are in the order of their fields. -/
def clock (t : UtcTime) : ℤ ×ₗ ℕ ×ₗ ℕ ×ₗ ℕ ×ₗ ℕ ×ₗ ℕ :=
  toLex (t.year, toLex (t.month, toLex (t.day, toLex (t.hour, toLex (t.minute, t.second)))))

/-- Earlier times are smaller. -/
instance : LT UtcTime :=
  ⟨fun a b => a.clock < b.clock ∨ a.clock = b.clock ∧ a.nanosecond < b.nanosecond⟩

instance : DecidableLT UtcTime := fun a b =>
  inferInstanceAs (Decidable (a.clock < b.clock ∨
    a.clock = b.clock ∧ a.nanosecond < b.nanosecond))

/-- `appendInt`: decimal digits, with zeros in front up to the given width. -/
def appendInt (x : ℤ) (width : ℕ) : List Char :=
  (if x < 0 then ['-'] else []) ++
    Decimal.padded (max width (Nat.log 10 x.natAbs + 1)) x.natAbs

/-- `appendNano` for `.999999999`: nine digits without trailing zeros, and no dot if none is
    left. -/
def appendNano (nanosecond : ℕ) : List Char :=
  if (Decimal.trimmed 9 nanosecond).isEmpty then []
  else '.' :: Decimal.trimmed 9 nanosecond

/-- `Format` with `time.RFC3339Nano`. -/
def format (t : UtcTime) : List Char :=
  appendInt t.year 4 ++ '-' :: (appendInt t.month 2 ++ '-' :: (appendInt t.day 2 ++
    'T' :: (appendInt t.hour 2 ++ ':' :: (appendInt t.minute 2 ++ ':' :: (appendInt t.second 2 ++
      (appendNano t.nanosecond ++ ['Z']))))))

end UtcTime

/-- The row of a run in the table. -/
def Run.row (r : Run UtcTime) : Run (List Char) where
  id := r.id
  containerID := r.containerID
  hostPort := r.hostPort
  phase := r.phase
  attempt := r.attempt
  started := r.started.format
  stopped := r.stopped

end Weibo.Control
