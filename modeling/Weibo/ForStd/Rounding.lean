import Mathlib.Algebra.Order.Ring.Abs
import Mathlib.Algebra.Order.Ring.Int
import Mathlib.Data.Int.Order.Basic
import Mathlib.Tactic.Linarith

/-!
# Rounding integers to floating-point numbers

Integers rounded to a significand of `p` bits, to the nearest such number and in a tie to the one
with an even significand. The exponent has no upper bound.

## Key results

- `roundNearest_nearest`: no number with a short significand is closer
- `roundNearest_mono`: rounding keeps the order, though not strictly
- `roundNearest_eq_self`: numbers with a short significand stay what they are
-/

open Int

namespace Rounding

/-- A number with a significand of `p` bits. A significand of `2 ^ p` is 1 with a larger
    exponent. -/
def Representable (p : ℕ) (x : ℤ) : Prop := ∃ (m : ℤ) (e : ℕ), |m| ≤ 2 ^ p ∧ x = m * 2 ^ e

/-- The multiple of `u` next to `x`, the even one in a tie. -/
def nearestMultiple (u x : ℤ) : ℤ :=
  if 2 * (x % u) < u ∨ 2 * (x % u) = u ∧ x / u % 2 = 0 then x / u * u else (x / u + 1) * u

/-- The exponent of the last of `p` bits of a number. -/
def exponent (p : ℕ) (x : ℤ) : ℕ := x.natAbs.log2 + 1 - p

def roundNearest (p : ℕ) (x : ℤ) : ℤ := nearestMultiple (2 ^ exponent p x) x

/-! ## Multiples -/

section Multiples

variable {u : ℤ} (hu : 0 < u) (x : ℤ)
include hu

theorem abs_sub_nearestMultiple : |x - nearestMultiple u x| = min (x % u) (u - x % u) := by
  have hx := ediv_mul_add_emod x u
  have hlo := emod_nonneg x (ne_of_gt hu)
  have hhi := emod_lt_of_pos x hu
  unfold nearestMultiple
  split
  · rw [abs_of_nonneg (by omega)]
    omega
  · rw [add_mul, one_mul, abs_of_nonpos (by omega)]
    omega

/-- The multiples on either side are the candidates. -/
theorem min_le_abs_sub (k : ℤ) : min (x % u) (u - x % u) ≤ |x - k * u| := by
  have hx := ediv_mul_add_emod x u
  cases lt_or_ge (x / u) k with
  | inl hlt =>
    have hmul : (x / u + 1) * u ≤ k * u := mul_le_mul_of_nonneg_right hlt (le_of_lt hu)
    rw [add_mul, one_mul] at hmul
    have habs := neg_abs_le (x - k * u)
    omega
  | inr hle =>
    have hmul : k * u ≤ x / u * u := mul_le_mul_of_nonneg_right hle (le_of_lt hu)
    have habs := le_abs_self (x - k * u)
    omega

theorem nearestMultiple_nearest {g : ℤ} (hg : u ∣ g) : |x - nearestMultiple u x| ≤ |x - g| := by
  obtain ⟨k, rfl⟩ := hg
  rw [abs_sub_nearestMultiple hu, mul_comm u k]
  exact min_le_abs_sub hu x k

end Multiples

/-! ## Short significands -/

theorem two_pow_pos (n : ℕ) : (0 : ℤ) < 2 ^ n := Int.pow_pos (by decide)

/-- Where a number lies between powers of two. -/
theorem pow_log2_le_abs {x : ℤ} (hx : x ≠ 0) : 2 ^ x.natAbs.log2 ≤ |x| := by
  have hle := Nat.log2_self_le (natAbs_ne_zero.mpr hx)
  rw [abs_eq_natAbs]
  exact_mod_cast hle

theorem abs_lt_pow_log2 (x : ℤ) : |x| < 2 ^ (x.natAbs.log2 + 1) := by
  have hlt := @Nat.lt_log2_self x.natAbs
  rw [abs_eq_natAbs]
  exact_mod_cast hlt

variable {p : ℕ}

theorem roundNearest_representable (x : ℤ) : Representable p (roundNearest p x) := by
  have hu := two_pow_pos (exponent p x)
  have hbound : |x| < 2 ^ p * 2 ^ exponent p x := by
    refine lt_of_lt_of_le (abs_lt_pow_log2 x) ?_
    rw [← pow_add]
    exact pow_le_pow_right₀ (by decide) (by unfold exponent; omega)
  rw [abs_lt] at hbound
  have hlt : x / 2 ^ exponent p x < 2 ^ p := Int.ediv_lt_of_lt_mul hu hbound.2
  have hge : -2 ^ p ≤ x / 2 ^ exponent p x := by
    rw [Int.le_ediv_iff_mul_le hu, Int.neg_mul]
    omega
  unfold roundNearest nearestMultiple
  split
  · exact ⟨_, _, abs_le.mpr ⟨hge, by omega⟩, rfl⟩
  · exact ⟨_, _, abs_le.mpr ⟨by omega, by omega⟩, rfl⟩

/-- A number that is larger than the leading power of two of another is a multiple of the last of
    that one's bits. -/
theorem Representable.dvd {g : ℤ} (hg : Representable p g) {x : ℤ} (hlt : 2 ^ x.natAbs.log2 < |g|) :
    (2 : ℤ) ^ exponent p x ∣ g := by
  obtain ⟨m, e, hm, rfl⟩ := hg
  have he : exponent p x ≤ e := by
    by_contra hlt'
    have hsmall : |m * 2 ^ e| ≤ 2 ^ (p + e) := by
      rw [abs_mul, abs_of_pos (two_pow_pos e), pow_add]
      exact mul_le_mul_of_nonneg_right hm (le_of_lt (two_pow_pos e))
    have hpow : (2 : ℤ) ^ (p + e) ≤ 2 ^ x.natAbs.log2 :=
      pow_le_pow_right₀ (by decide) (by unfold exponent at hlt'; omega)
    omega
  exact Dvd.dvd.mul_left (pow_dvd_pow 2 he) m

/-- No number with a short significand is closer. -/
theorem roundNearest_nearest (hp : 0 < p) (x : ℤ) {g : ℤ} (hg : Representable p g) :
    |x - roundNearest p x| ≤ |x - g| := by
  have hu := two_pow_pos (exponent p x)
  cases lt_or_ge (2 ^ x.natAbs.log2) |g| with
  | inl hlt => exact nearestMultiple_nearest hu x (hg.dvd hlt)
  | inr hle =>
    have hg := abs_le.mp hle
    have hdvd : (2 : ℤ) ^ exponent p x ∣ 2 ^ x.natAbs.log2 :=
      pow_dvd_pow 2 (by unfold exponent; omega)
    -- the leading power of two lies between the two
    cases lt_trichotomy x 0 with
    | inl hneg =>
      have hlead := pow_log2_le_abs (ne_of_lt hneg)
      rw [abs_of_neg hneg] at hlead
      refine (nearestMultiple_nearest hu x (dvd_neg.mpr hdvd)).trans ?_
      rw [abs_of_nonpos (by omega), abs_of_nonpos (by omega)]
      omega
    | inr hnonneg =>
      cases hnonneg with
      | inl hzero =>
        have hdist := nearestMultiple_nearest hu x (dvd_zero _)
        rw [hzero, sub_zero, abs_zero] at hdist
        rw [hzero]
        exact hdist.trans (abs_nonneg _)
      | inr hpos =>
        have hlead := pow_log2_le_abs (ne_of_gt hpos)
        rw [abs_of_pos hpos] at hlead
        refine (nearestMultiple_nearest hu x hdvd).trans ?_
        rw [abs_of_nonneg (by omega), abs_of_nonneg (by omega)]
        omega

/-- Rounding keeps the order. -/
theorem roundNearest_mono (hp : 0 < p) {x y : ℤ} (hxy : x ≤ y) :
    roundNearest p x ≤ roundNearest p y := by
  by_contra hlt
  -- `x` is not below the middle of the two results, and `y` not above it
  have hx := roundNearest_nearest hp x (roundNearest_representable y)
  have hy := roundNearest_nearest hp y (roundNearest_representable x)
  have hne : x ≠ y := by
    rintro rfl
    exact hlt (le_refl _)
  have hx' := neg_abs_le (x - roundNearest p x)
  have hy' := le_abs_self (y - roundNearest p y)
  rcases abs_cases (x - roundNearest p y) with ⟨habs, _⟩ | ⟨habs, _⟩ <;>
    rcases abs_cases (y - roundNearest p x) with ⟨habs', _⟩ | ⟨habs', _⟩ <;> omega

theorem roundNearest_eq_self (hp : 0 < p) {x : ℤ} (hx : Representable p x) :
    roundNearest p x = x := by
  have hdist := roundNearest_nearest hp x hx
  rw [sub_self, abs_zero, abs_nonpos_iff] at hdist
  omega

end Rounding
