import Weibo.Model.StartTime
import Weibo.Spec.ControllerSteps

/-!
# The latest run

`LatestRun` takes the run with the greatest start text. Up to the seconds the texts are in the order
of the times; the fractions are not, since `time.RFC3339Nano` drops their trailing zeros and the `Z`
that follows is greater than every digit and than the dot. So 12:00:05.12 comes after 12:00:05.125.

## Key results

- `format_gt_iff`: when the earlier of two times has the greater text
- `latestRun_newest_iff`: when `LatestRun` returns the run that started last
-/

open List Decimal

namespace Weibo.Control

namespace UtcTime

/-- The fraction of `a` ends where that of `b` goes on: both lie in the same second, and `b` is less
    than a power of ten away that divides the nanoseconds of `a`. -/
def CutShort (a b : UtcTime) : Prop :=
  a.clock = b.clock ∧ ∃ k ≤ 9, 10 ^ k ∣ a.nanosecond ∧ b.nanosecond < a.nanosecond + 10 ^ k

instance (a b : UtcTime) : Decidable (a.CutShort b) :=
  inferInstanceAs (Decidable (a.clock = b.clock ∧
    ∃ k ≤ 9, 10 ^ k ∣ a.nanosecond ∧ b.nanosecond < a.nanosecond + 10 ^ k))

/-! ## Texts of times -/

theorem appendInt_eq_padded {a width : ℕ} (ha : a < 10 ^ width) (hwidth : width ≠ 0) :
    appendInt a width = padded width a := by
  have hlog : Nat.log 10 a + 1 ≤ width := Nat.log_lt_of_lt_pow' hwidth ha
  rw [appendInt, if_neg (by omega), nil_append, Int.natAbs_natCast, max_eq_left hlog]

/-- Two fields of the same width decide, or what follows them. -/
theorem appendInt_append_lt {a b width : ℕ} (ha : a < 10 ^ width) (hb : b < 10 ^ width)
    (hwidth : width ≠ 0) (x y : List Char) :
    appendInt a width ++ x < appendInt b width ++ y ↔ a < b ∨ a = b ∧ x < y := by
  rw [appendInt_eq_padded ha hwidth, appendInt_eq_padded hb hwidth, padded_append_lt ha hb]

variable {a b : UtcTime}

theorem appendInt_year_lt (ha : 0 ≤ a.year ∧ a.year < 10000)
    (hb : 0 ≤ b.year ∧ b.year < 10000) (x y : List Char) :
    appendInt a.year 4 ++ x < appendInt b.year 4 ++ y ↔
      a.year < b.year ∨ a.year = b.year ∧ x < y := by
  obtain ⟨m, hm⟩ := Int.eq_ofNat_of_zero_le ha.1
  obtain ⟨n, hn⟩ := Int.eq_ofNat_of_zero_le hb.1
  rw [hm, hn, appendInt_append_lt (by omega) (by omega) (by decide), Int.ofNat_lt, Int.natCast_inj]

theorem cons_lt_cons_self (c : Char) (x y : List Char) : c :: x < c :: y ↔ x < y := by
  rw [cons_lt_cons_iff]
  simp

/-- Without the fraction the texts are in the order of the seconds. -/
theorem format_lt (ha : 0 ≤ a.year ∧ a.year < 10000) (hb : 0 ≤ b.year ∧ b.year < 10000) :
    a.format < b.format ↔ a.clock < b.clock ∨ a.clock = b.clock ∧
      appendNano a.nanosecond ++ ['Z'] < appendNano b.nanosecond ++ ['Z'] := by
  have hmonth := a.month_mem
  have hmonth' := b.month_mem
  have hday := a.day_mem
  have hday' := b.day_mem
  have hhour := a.hour_lt
  have hhour' := b.hour_lt
  have hminute := a.minute_lt
  have hminute' := b.minute_lt
  have hsecond := a.second_lt
  have hsecond' := b.second_lt
  rw [format, format, appendInt_year_lt ha hb, cons_lt_cons_self,
    appendInt_append_lt (by omega) (by omega) (by decide), cons_lt_cons_self,
    appendInt_append_lt (by omega) (by omega) (by decide), cons_lt_cons_self,
    appendInt_append_lt (by omega) (by omega) (by decide), cons_lt_cons_self,
    appendInt_append_lt (by omega) (by omega) (by decide), cons_lt_cons_self,
    appendInt_append_lt (by omega) (by omega) (by decide)]
  simp only [clock, Prod.Lex.toLex_lt_toLex, toLex_inj, Prod.mk.injEq, and_or_left, or_assoc,
    and_assoc]

/-- The fractions of two times in the same second. -/
theorem appendNano_lt {m n : ℕ} (hmn : m < n) (hn : n < 10 ^ 9) :
    appendNano n ++ ['Z'] < appendNano m ++ ['Z'] ↔ ∃ k ≤ 9, 10 ^ k ∣ m ∧ n < m + 10 ^ k := by
  have hne : (trimmed 9 n).isEmpty = false := by
    rw [isEmpty_eq_false_iff]
    exact trimmed_ne_nil hn (by omega)
  rw [← trimmed_append_lt (show '9' < 'Z' by decide) hmn hn [] []]
  simp only [appendNano, hne, Bool.false_eq_true, if_false]
  split
  case isTrue hempty =>
    -- without a fraction `Z` is compared with the dot, or with the first digit
    rw [isEmpty_iff.mp hempty, trimmed_succ hn (by omega)]
    have hdigit := digitChar_le_nine (digit_lt (n := 8) hn)
    exact iff_of_true (Lex.rel (by decide)) (Lex.rel (lt_of_le_of_lt hdigit (by decide)))
  case isFalse => rw [cons_append, cons_append, cons_lt_cons_self]

theorem appendNano_inj {m n : ℕ} (hm : m < 10 ^ 9) (hn : n < 10 ^ 9)
    (h : appendNano m = appendNano n) : m = n := by
  apply trimmed_inj hm hn
  rw [appendNano, appendNano] at h
  split at h <;> split at h
  case isTrue.isTrue hm hn => rw [isEmpty_iff.mp hm, isEmpty_iff.mp hn]
  case isFalse.isFalse => exact (cons.inj h).2
  all_goals simp at h

/-- The earlier of two times has the greater text exactly when its fraction is cut short. -/
theorem format_gt_iff (ha : 0 ≤ a.year ∧ a.year < 10000)
    (hb : 0 ≤ b.year ∧ b.year < 10000) (hab : a < b) : b.format < a.format ↔ a.CutShort b := by
  rw [format_lt hb ha, CutShort]
  rcases hab with hclock | ⟨hclock, hnano⟩
  · constructor
    · rintro (h | ⟨h, -⟩)
      · exact absurd h (lt_asymm hclock)
      · exact absurd h.symm (ne_of_lt hclock)
    · exact fun h => absurd h.1 (ne_of_lt hclock)
  · rw [appendNano_lt hnano b.nanosecond_lt, hclock]
    simp

/-- Two different times have different texts. -/
theorem format_ne (ha : 0 ≤ a.year ∧ a.year < 10000)
    (hb : 0 ≤ b.year ∧ b.year < 10000) (hab : a < b) : a.format ≠ b.format := by
  intro heq
  have hnot : ¬ a.format < b.format := by rw [heq]; exact lt_irrefl _
  rw [format_lt ha hb] at hnot
  rcases hab with hclock | ⟨hclock, hnano⟩
  · exact hnot (.inl hclock)
  · have hgt : ¬ b.format < a.format := by rw [heq]; exact lt_irrefl _
    rw [format_lt hb ha] at hgt
    have hfraction : appendNano a.nanosecond ++ ['Z'] = appendNano b.nanosecond ++ ['Z'] :=
      le_antisymm (le_of_not_gt fun h => hgt (.inr ⟨hclock.symm, h⟩))
        (le_of_not_gt fun h => hnot (.inr ⟨hclock, h⟩))
    have hsame := appendNano_inj a.nanosecond_lt b.nanosecond_lt (append_cancel_right hfraction)
    omega

end UtcTime

/-! ## The run that started last -/

/-- For every set of runs that started at different times, in years of four digits: `LatestRun`
    returns the one that started last, unless the fraction of another run that started in the same
    second is cut short. -/
theorem latestRun_newest_iff (desired : DesiredState) (transitions : List Transition)
    (runs : List (Run UtcTime)) (hyears : ∀ r ∈ runs, 0 ≤ r.started.year ∧ r.started.year < 10000)
    (newest : Run UtcTime) (hmem : newest ∈ runs)
    (hnewest : ∀ r ∈ runs, r ≠ newest → r.started < newest.started) :
    Store.latestRun ⟨desired, runs.map Run.row, transitions⟩ = some newest.row ↔
      ∀ r ∈ runs, r ≠ newest → ¬ r.started.CutShort newest.started := by
  constructor
  · intro hlatest r hr hne hcut
    have hle := started_le_latestRun hlatest r.row (List.mem_map_of_mem hr)
    exact absurd ((UtcTime.format_gt_iff (hyears r hr) (hyears newest hmem)
      (hnewest r hr hne)).mpr hcut) (not_lt_of_ge hle)
  · intro h
    apply latestRun_eq_of_lt (List.mem_map_of_mem hmem)
    intro row hrow
    obtain ⟨r, hr, rfl⟩ := List.mem_map.mp hrow
    by_cases hne : r = newest
    · exact .inl (congrArg Run.row hne)
    · have hlt := hnewest r hr hne
      have hle : r.row.started ≤ newest.row.started := le_of_not_gt fun hgt =>
        h r hr hne ((UtcTime.format_gt_iff (hyears r hr) (hyears newest hmem) hlt).mp hgt)
      exact .inr (lt_of_le_of_ne hle (UtcTime.format_ne (hyears r hr) (hyears newest hmem) hlt))

/-- A time on 4 March 2025, shortly after noon. -/
def afterNoon (second : Fin 60) (nanosecond : Fin (10 ^ 9)) : UtcTime where
  year := 2025
  month := 3
  day := 4
  hour := 12
  minute := 0
  second := second
  nanosecond := nanosecond
  month_mem := by decide
  day_mem := by decide
  hour_lt := by decide
  minute_lt := by decide
  second_lt := second.isLt
  nanosecond_lt := nanosecond.isLt

/-- Two runs in the same second: 12:00:05.125 and 12:00:05.13. -/
theorem latestRun_newest_same_second :
    Store.latestRun ⟨.running, [Run.row ⟨1, 1, 8081, .running, 1, afterNoon 5 130000000, false⟩,
        Run.row ⟨0, 0, 8080, .failed, 1, afterNoon 5 125000000, true⟩], []⟩ =
      some (Run.row ⟨1, 1, 8081, .running, 1, afterNoon 5 130000000, false⟩) := by
  refine (latestRun_newest_iff .running []
    [⟨1, 1, 8081, .running, 1, afterNoon 5 130000000, false⟩,
      ⟨0, 0, 8080, .failed, 1, afterNoon 5 125000000, true⟩] (by decide)
    ⟨1, 1, 8081, .running, 1, afterNoon 5 130000000, false⟩ List.mem_cons_self (by decide)).mpr ?_
  decide

/-- A first run that failed at 12:00:05.12 and a second one that runs since 12:00:05.125:
    `LatestRun` returns the first, `launch` starts another container, and `Cancel` has nothing to
    stop. -/
theorem latestRun_returns_older :
    let store : Store (List Char) := ⟨.running,
      [Run.row ⟨0, 0, 8080, .failed, 1, afterNoon 5 120000000, true⟩,
        Run.row ⟨1, 1, 8081, .running, 1, afterNoon 5 125000000, false⟩], []⟩
    afterNoon 5 120000000 < afterNoon 5 125000000 ∧
      store.latestRun = some (Run.row ⟨0, 0, 8080, .failed, 1, afterNoon 5 120000000, true⟩) ∧
      ∀ p a, (Pc.fence 1 []).resume p a store.latestRun = some (.launch a.id 1 a.now []) ∧
        Pc.cancelLatestRun.resume p a store.latestRun = none := by
  intro store
  have hlatest : store.latestRun =
      some (Run.row ⟨0, 0, 8080, .failed, 1, afterNoon 5 120000000, true⟩) := by decide
  refine ⟨by decide, hlatest, fun p a => ?_⟩
  rw [hlatest]
  exact ⟨rfl, rfl⟩

end Weibo.Control
