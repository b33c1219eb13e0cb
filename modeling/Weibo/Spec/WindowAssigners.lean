import Mathlib.Data.Int.ModEq
import Mathlib.Tactic.Ring
import Weibo.Model.Window

/-!
# Which windows a timestamp is assigned to

`WindowStart` means to floor a timestamp to a window boundary but divides with truncation. From the
offset on that is the same; below the offset it yields the boundary after the timestamp. A tumbling
window then does not contain the record that is assigned to it.

Sliding windows are not affected. They walk back from that boundary and skip the windows that start
after the timestamp.

## Key results

- `tumbling_contains_iff`: when a tumbling window contains its timestamp
- `sliding_exact`: a timestamp is assigned to exactly the sliding windows that
  contain it
-/

namespace Weibo

open List Int

/-! ## Boundaries -/

section Start

variable {ts size offset : Int}

/-- The start is a boundary. -/
theorem windowStart_modEq (ts size offset : Int) :
    windowStart ts size offset ≡ offset [ZMOD size] := by
  rw [modEq_iff_dvd, windowStart]
  exact ⟨-(ts - offset).tdiv size, by ring⟩

/-- The start is less than one window away from the timestamp, on either side. -/
theorem windowStart_near (ts offset : Int) (pos : 0 < size) :
    ts < windowStart ts size offset + size ∧ windowStart ts size offset < ts + size := by
  have hsplit := tdiv_mul_add_tmod (ts - offset) size
  have hlt := tmod_lt_of_pos (ts - offset) pos
  have hgt := lt_tmod_of_pos (ts - offset) pos
  rw [windowStart]
  omega

/-- The start is at or before the timestamp from the offset on, and below it only on a boundary. -/
theorem windowStart_le_iff :
    windowStart ts size offset ≤ ts ↔ offset ≤ ts ∨ size ∣ ts - offset := by
  have hsplit := tdiv_mul_add_tmod (ts - offset) size
  rw [windowStart]
  constructor
  · intro hle
    by_cases hoff : offset ≤ ts
    · exact .inl hoff
    · -- a negative number has a remainder that is not positive
      have hneg : (ts - offset).tmod size ≤ 0 := by
        have hnonneg : 0 ≤ (offset - ts).tmod size := tmod_nonneg size (by omega)
        rw [← neg_sub, neg_tmod]
        omega
      right
      rw [dvd_iff_tmod_eq_zero]
      omega
  · rintro (hoff | hdvd)
    · have hnonneg : 0 ≤ (ts - offset).tmod size := tmod_nonneg size (by omega)
      omega
    · have hzero : (ts - offset).tmod size = 0 := tmod_eq_zero_of_dvd hdvd
      omega

/-- Two boundaries less than one window apart are the same. -/
theorem eq_of_modEq {s s' : Int} (h : s ≡ s' [ZMOD size]) (hlt : s < s' + size)
    (hgt : s' < s + size) : s = s' := by
  obtain ⟨k, hk⟩ := modEq_iff_dvd.mp h
  have hpos : 0 < size := by omega
  -- the distance is a multiple of the size strictly between its negative and itself
  have hk0 : k = 0 := by
    by_contra hne
    rcases lt_or_gt_of_ne hne with hneg | hpos'
    · have : size * k ≤ size * (-1) := Int.mul_le_mul_of_nonneg_left (by omega) (by omega)
      omega
    · have : size * 1 ≤ size * k := Int.mul_le_mul_of_nonneg_left (by omega) (by omega)
      omega
  rw [hk0] at hk
  omega

/-- A boundary at or before the timestamp is at or before the window's start. -/
theorem le_windowStart {s : Int} (pos : 0 < size) (h : s ≡ offset [ZMOD size]) (hle : s ≤ ts) :
    ∃ j : ℕ, s = windowStart ts size offset - j * size := by
  obtain ⟨k, hk⟩ := modEq_iff_dvd.mp (h.trans (windowStart_modEq ts size offset).symm)
  have hnear := (windowStart_near ts offset pos).1
  have hk0 : 0 ≤ k := by
    by_contra hneg
    have : size * k ≤ size * (-1) := Int.mul_le_mul_of_nonneg_left (by omega) (by omega)
    omega
  refine ⟨k.toNat, ?_⟩
  rw [toNat_of_nonneg hk0, mul_comm]
  omega

end Start

/-! ## Tumbling windows -/

/-- The timestamp is at or above the offset, or on a boundary. -/
def Floors (size offset ts : Int) : Prop := offset ≤ ts ∨ size ∣ ts - offset

instance (size offset ts : Int) : Decidable (Floors size offset ts) :=
  inferInstanceAs (Decidable (offset ≤ ts ∨ size ∣ ts - offset))

/-- A tumbling window contains its timestamp exactly if that is at or above the offset or on a
    boundary. Two such timestamps share a window exactly if they lie between the same two
    boundaries. -/
theorem tumbling_contains_iff (size offset : Int) (pos : 0 < size) :
    (∀ ts, (∃ start, (tumbling size offset).assignWindows ts = [⟨start, start + size⟩] ∧
        start ≤ ts ∧ ts < start + size ∧ start ≡ offset [ZMOD size]) ↔ Floors size offset ts) ∧
    ∀ ts ts', Floors size offset ts → Floors size offset ts' →
      ((tumbling size offset).assignWindows ts = (tumbling size offset).assignWindows ts' ↔
        ∃ k : Int, offset + k * size ≤ ts ∧ ts < offset + (k + 1) * size ∧
          offset + k * size ≤ ts' ∧ ts' < offset + (k + 1) * size) := by
  constructor
  · intro ts
    constructor
    · rintro ⟨start, hwin, hle, -, -⟩
      obtain rfl : windowStart ts size offset = start :=
        (Window.mk.inj (cons.inj hwin).1).1
      exact windowStart_le_iff.mp hle
    · intro hfloors
      exact ⟨_, rfl, windowStart_le_iff.mpr hfloors, (windowStart_near ts offset pos).1,
        windowStart_modEq ts size offset⟩
  · intro ts ts' hfloors hfloors'
    have hle := windowStart_le_iff.mpr hfloors
    have hle' := windowStart_le_iff.mpr hfloors'
    have hlt := (windowStart_near ts offset pos).1
    have hlt' := (windowStart_near ts' offset pos).1
    constructor
    · intro hsame
      have hstart : windowStart ts size offset = windowStart ts' size offset :=
        (Window.mk.inj (cons.inj hsame).1).1
      -- the common start is the boundary below both
      refine ⟨(ts - offset).tdiv size, ?_⟩
      have hbound : windowStart ts size offset = offset + (ts - offset).tdiv size * size :=
        Int.add_comm ..
      have hnext : offset + ((ts - offset).tdiv size + 1) * size =
          windowStart ts size offset + size := by
        rw [hbound]
        ring
      omega
    · rintro ⟨k, hk, hk1, hk', hk1'⟩
      have hnext : offset + (k + 1) * size = offset + k * size + size := by ring
      -- two starts less than a size apart that lie on boundaries are equal
      have hbound : ∀ t, offset + k * size ≡ windowStart t size offset [ZMOD size] := by
        intro t
        refine Int.ModEq.trans ?_ (windowStart_modEq t size offset).symm
        rw [Int.modEq_iff_dvd]
        exact ⟨-k, by ring⟩
      have heq := eq_of_modEq (hbound ts) (by omega) (by omega)
      have heq' := eq_of_modEq (hbound ts') (by omega) (by omega)
      show [Window.mk _ _] = [Window.mk _ _]
      rw [← heq, ← heq']

/-- Windows of five minutes, from the epoch on. -/
theorem tumbling_contains_iff_five_minutes :
    (0 : Int) < 300000000000 ∧
      ((∃ start, (tumbling 300000000000 0).assignWindows 450000000000 =
          [⟨start, start + 300000000000⟩] ∧ start ≤ 450000000000 ∧
          450000000000 < start + 300000000000 ∧ start ≡ 0 [ZMOD 300000000000]) ↔
        Floors 300000000000 0 450000000000) :=
  ⟨by decide, (tumbling_contains_iff 300000000000 0 (by decide)).1 450000000000⟩

/-- One second before the epoch falls into the first five minutes after it. -/
theorem tumbling_misses_before_epoch :
    (tumbling 300000000000 0).assignWindows (-1000000000) = [⟨0, 300000000000⟩] ∧
      ¬ ∃ start, (tumbling 300000000000 0).assignWindows (-1000000000) =
          [⟨start, start + 300000000000⟩] ∧ start ≤ -1000000000 ∧
          -1000000000 < start + 300000000000 ∧ start ≡ 0 [ZMOD 300000000000] := by
  refine ⟨by decide, ?_⟩
  rintro ⟨start, hwin, hle, -, -⟩
  have hstart : (0 : Int) = start := (Window.mk.inj (cons.inj hwin).1).1
  omega

/-! ## Sliding windows -/

section Sliding

variable {size slide : Int} {pos : 0 < slide} {ts : Int}

/-- Walking back finds every window that contains the timestamp and starts some slides before the
    first one. -/
theorem mem_slideBackward {start : Int} {win : Window} :
    win ∈ slideBackward size slide pos ts start ↔
      ∃ j : ℕ, win = ⟨start - j * slide, start - j * slide + size⟩ ∧
        start - j * slide ≤ ts ∧ ts < start - j * slide + size := by
  fun_induction slideBackward size slide pos ts start with
  | case1 start hlt ih =>
    rw [List.mem_append, ih]
    constructor
    · rintro (hmem | ⟨j, hwin, hle, hend⟩)
      · split at hmem
        · rename_i hle
          rw [mem_singleton.mp hmem]
          exact ⟨0, by simp, by simpa using hle, by simpa using hlt⟩
        · simp at hmem
      · have hshift : start - ((j + 1 : ℕ) : Int) * slide = start - slide - j * slide := by
          push_cast
          ring
        exact ⟨j + 1, by rw [hshift]; exact hwin, by rw [hshift]; exact hle,
          by rw [hshift]; exact hend⟩
    · rintro ⟨j, hwin, hle, hend⟩
      cases j with
      | zero =>
        left
        simp only [Nat.cast_zero, zero_mul, sub_zero] at hwin hle
        rw [if_pos hle, hwin]
        exact mem_singleton_self _
      | succ j =>
        have hshift : start - ((j + 1 : ℕ) : Int) * slide = start - slide - j * slide := by
          push_cast
          ring
        rw [hshift] at hwin hle hend
        exact .inr ⟨j, hwin, hle, hend⟩
  | case2 start hnot =>
    constructor
    · exact fun hmem => absurd hmem (by simp)
    · -- windows further back end even earlier
      rintro ⟨j, -, -, hend⟩
      have hj : 0 ≤ (j : Int) * slide := Int.mul_nonneg (by omega) (by omega)
      omega

/-- Walking back, the windows start earlier and earlier. -/
theorem slideBackward_nodup (start : Int) : (slideBackward size slide pos ts start).Nodup := by
  fun_induction slideBackward size slide pos ts start with
  | case1 start hlt ih =>
    split
    · rw [singleton_append, nodup_cons]
      refine ⟨fun hmem => ?_, ih⟩
      obtain ⟨j, hwin, -, -⟩ := mem_slideBackward.mp hmem
      have hstart : start = start - slide - j * slide := (Window.mk.inj hwin).1
      have hj : 0 ≤ (j : Int) * slide := Int.mul_nonneg (by omega) (by omega)
      omega
    · exact ih
  | case2 start hnot => exact nodup_nil

/-- Walking forward from a start behind the timestamp finds nothing. -/
theorem slideForward_eq_nil {start : Int} (h : ts < start) :
    slideForward size slide pos ts start = [] := by
  fun_induction slideForward size slide pos ts start with
  | case1 start hlt ih =>
    rw [if_neg (by omega), ih (by omega)]
    rfl
  | case2 start hnot => rfl

/-- The windows of a timestamp, if there are no gaps between windows. -/
theorem assignWindows_sliding (offset : Int) (hsize : slide ≤ size) :
    (sliding size slide offset pos).assignWindows ts =
      slideBackward size slide pos ts (windowStart ts slide offset) := by
  have hnear := windowStart_near ts offset pos
  -- the window that starts at the last boundary before the timestamp is found
  have hne : slideBackward size slide pos ts (windowStart ts slide offset) ≠ [] := by
    by_cases hle : windowStart ts slide offset ≤ ts
    · exact ne_nil_of_mem (mem_slideBackward.mpr ⟨0, rfl, by simpa using hle, by simp; omega⟩)
    · exact ne_nil_of_mem (mem_slideBackward.mpr ⟨1, rfl, by simp; omega, by simp; omega⟩)
  dsimp only [sliding]
  rw [slideForward_eq_nil (by omega), append_nil]
  split
  · rename_i hnil
    exact absurd hnil hne
  · rfl

end Sliding

/-- A timestamp is assigned to the sliding windows that contain it, to each of them once and to no
    other. -/
theorem sliding_exact (size slide offset : Int) (pos : 0 < slide) (hsize : slide ≤ size) (ts : Int) :
    ((sliding size slide offset pos).assignWindows ts).Nodup ∧
    ∀ win, win ∈ (sliding size slide offset pos).assignWindows ts ↔
      ∃ start, win = ⟨start, start + size⟩ ∧ start ≡ offset [ZMOD slide] ∧ start ≤ ts ∧
        ts < start + size := by
  rw [assignWindows_sliding offset hsize]
  refine ⟨slideBackward_nodup _, fun win => ?_⟩
  rw [mem_slideBackward]
  constructor
  · rintro ⟨j, hwin, hle, hlt⟩
    refine ⟨_, hwin, ?_, hle, hlt⟩
    refine Int.ModEq.trans ?_ (windowStart_modEq ts slide offset)
    rw [Int.modEq_iff_dvd]
    exact ⟨j, by ring⟩
  · rintro ⟨start, hwin, hmod, hle, hlt⟩
    -- the starts at or below the timestamp are those that the loop goes through
    obtain ⟨j, hj⟩ := le_windowStart pos hmod hle
    rw [hj] at hwin hle hlt
    exact ⟨j, hwin, hle, hlt⟩

/-- Windows of three that start every two, at a timestamp below zero. -/
theorem sliding_exact_below_zero :
    ((sliding 3 2 0 (by decide)).assignWindows (-4)).Nodup ∧
    ∀ win, win ∈ (sliding 3 2 0 (by decide)).assignWindows (-4) ↔
      ∃ start, win = ⟨start, start + 3⟩ ∧ start ≡ 0 [ZMOD 2] ∧ start ≤ -4 ∧ -4 < start + 3 :=
  sliding_exact 3 2 0 (by decide) (by decide) (-4)

end Weibo
