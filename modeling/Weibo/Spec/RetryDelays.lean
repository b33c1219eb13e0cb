import Mathlib.Algebra.Order.Ring.Int
import Mathlib.Data.Int.Order.Basic
import Weibo.Model.JobStore
import Weibo.Model.KafkaSource

/-!
# Delays between retries

The restart of a failed job and the retry of a failed fetch both wait for a time that doubles up to
a limit. Durations are `int64`, and doubling wraps around.

## Key results

- `RestartPolicy.backoff_law_iff`: the policies whose delays are capped powers
- `fetch_delay_iff`: the attempts whose delay is a capped power
-/

namespace Weibo

open List

/-! ## Restarts -/

namespace Control.RestartPolicy

variable {p : RestartPolicy} {d : Int64}

/-- The delays are the doubled base up to the limit; so they are in range and do not decrease. -/
structure BackoffLaw (p : RestartPolicy) : Prop where
  eq_min : ∀ n ≥ 1, (p.backoff n).toInt =
    min (p.baseBackoff.toInt * 2 ^ (n - 1)) p.maxBackoff.toInt
  nonneg : ∀ n ≥ 1, 0 ≤ (p.backoff n).toInt
  le_max : ∀ n ≥ 1, p.backoff n ≤ p.maxBackoff
  mono : ∀ m n, 1 ≤ m → m ≤ n → p.backoff m ≤ p.backoff n

/-- Doubling reaches the limit before it overflows. -/
def Reaches (p : RestartPolicy) (d : Int64) : Prop :=
  d = 0 ∨ ∃ k ≥ 1, p.maxBackoff.toInt ≤ d.toInt * 2 ^ k ∧ d.toInt * 2 ^ k < 2 ^ 63

theorem toInt_double (hd : 0 ≤ d.toInt) :
    (d * 2).toInt = if d.toInt * 2 < 2 ^ 63 then d.toInt * 2 else d.toInt * 2 - 2 ^ 64 := by
  have hlt := d.toInt_lt
  rw [Int64.toInt_mul, show (2 : Int64).toInt = 2 by decide, Int.bmod_def]
  split <;> split <;> omega

section Loop

variable (hmax : 0 < p.maxBackoff.toInt)
include hmax

theorem doubled_succ (n : ℕ) (d : Int64) : p.doubled (n + 1) d =
      if p.maxBackoff.toInt ≤ (d * 2).toInt then p.maxBackoff else p.doubled n (d * 2) := by
  have hpos : p.maxBackoff > 0 := Int64.lt_iff_toInt_lt.mpr hmax
  simp [doubled, hpos, Int64.le_iff_toInt_le]

omit hmax in
/-- What is left to reach behind one doubling. -/
theorem Reaches.double (h : p.Reaches d) (hd : 0 ≤ d.toInt) : (d * 2).toInt = d.toInt * 2 ∧
      (d.toInt * 2 < p.maxBackoff.toInt → p.Reaches (d * 2)) := by
  cases h with
  | inl hzero =>
    subst hzero
    exact ⟨by decide, fun _ => .inl (by decide)⟩
  | inr h =>
    obtain ⟨k, hk, hle, hlt⟩ := h
    obtain ⟨k, rfl⟩ : ∃ k', k = k' + 1 := ⟨k - 1, by omega⟩
    rw [Int.pow_succ', ← Int.mul_assoc] at hle hlt
    have hpow : (1 : ℤ) ≤ 2 ^ k := one_le_pow₀ (by decide)
    have htwo : (d * 2).toInt = d.toInt * 2 := by
      rw [toInt_double hd, if_pos (by nlinarith)]
    refine ⟨htwo, fun hmore => .inr ⟨k, ?_, by rw [htwo]; exact ⟨hle, hlt⟩⟩⟩
    by_contra hzero
    obtain rfl : k = 0 := by omega
    omega

/-- The loop without an overflow. -/
theorem doubled_eq_min (hd : 0 ≤ d.toInt) (hle : d.toInt ≤ p.maxBackoff.toInt)
    (hreaches : p.Reaches d) (n : ℕ) :
    (p.doubled n d).toInt = min (d.toInt * 2 ^ n) p.maxBackoff.toInt := by
  induction n generalizing d with
  | zero => simp [doubled, hle]
  | succ n ih =>
    obtain ⟨htwo, hrest⟩ := hreaches.double hd
    rw [doubled_succ hmax, htwo]
    have hpow : (1 : ℤ) ≤ 2 ^ n := one_le_pow₀ (by decide)
    split
    · have hle' : p.maxBackoff.toInt ≤ d.toInt * 2 ^ (n + 1) := by
        rw [Int.pow_succ']
        nlinarith
      omega
    · rw [ih (by omega) (by omega) (hrest (by omega)), htwo, Int.pow_succ', Int.mul_assoc]

/-- Otherwise the time becomes negative. -/
theorem reaches_of_nonneg {d : Int64} (hd : 0 < d.toInt) (h : ∀ n, 0 ≤ (p.doubled n d).toInt) :
    p.Reaches d := by
  have hlt := d.toInt_lt
  have hone := h 1
  rw [doubled_succ hmax, toInt_double (Int.le_of_lt hd)] at hone
  -- the first doubling that overflows would be returned
  have hfits : d.toInt * 2 < 2 ^ 63 := by
    by_contra hover
    rw [if_neg hover, if_neg (by omega), doubled, toInt_double (Int.le_of_lt hd),
      if_neg hover] at hone
    omega
  have htwo : (d * 2).toInt = d.toInt * 2 := by rw [toInt_double (Int.le_of_lt hd), if_pos hfits]
  by_cases hle : p.maxBackoff.toInt ≤ d.toInt * 2
  · exact .inr ⟨1, Nat.le_refl 1, by rwa [Int.pow_one], by rwa [Int.pow_one]⟩
  · have hrest : p.Reaches (d * 2) := reaches_of_nonneg (by omega) fun n => by
      have hn := h (n + 1)
      rwa [doubled_succ hmax, htwo, if_neg hle] at hn
    cases hrest with
    | inl hzero =>
      rw [hzero] at htwo
      have : (0 : Int64).toInt = 0 := by decide
      omega
    | inr hrest =>
      obtain ⟨k, -, hk, hk'⟩ := hrest
      rw [htwo, Int.mul_assoc, ← Int.pow_succ'] at hk hk'
      exact .inr ⟨k + 1, by omega, hk, hk'⟩
termination_by (2 ^ 63 - d.toInt).toNat
decreasing_by omega

end Loop

/-- The policies whose delays are the doubled base up to the limit: the base is not above the limit
    itself, and doubling reaches the limit before it overflows. -/
theorem backoff_law_iff (hbase : 0 ≤ p.baseBackoff.toInt) (hmax : 0 < p.maxBackoff.toInt) :
    BackoffLaw p ↔ p.baseBackoff ≤ p.maxBackoff ∧ p.Reaches p.baseBackoff := by
  constructor
  · intro h
    refine ⟨h.le_max 1 (Nat.le_refl 1), ?_⟩
    by_cases hzero : p.baseBackoff.toInt = 0
    · exact .inl (Int64.toInt_inj.mp hzero)
    · exact reaches_of_nonneg hmax (by omega) fun n => h.nonneg (n + 1) (by omega)
  · intro ⟨hle, hreaches⟩
    have heq : ∀ n, (p.backoff n).toInt =
        min (p.baseBackoff.toInt * 2 ^ (n - 1)) p.maxBackoff.toInt := fun n =>
      doubled_eq_min hmax hbase (Int64.le_iff_toInt_le.mp hle) hreaches (n - 1)
    have hpow : ∀ n, 0 ≤ p.baseBackoff.toInt * 2 ^ n := fun n =>
      Int.mul_nonneg hbase (Int.pow_nonneg (by decide))
    refine ⟨fun n _ => heq n, fun n _ => ?_, fun n _ => ?_, fun m n hm hmn => ?_⟩
    · have := hpow (n - 1)
      rw [heq]
      omega
    · rw [Int64.le_iff_toInt_le, heq]
      omega
    · rw [Int64.le_iff_toInt_le, heq, heq]
      have hpow' : (2 : ℤ) ^ (m - 1) ≤ 2 ^ (n - 1) := pow_le_pow_right₀ (by decide) (by omega)
      have := Int.mul_le_mul_of_nonneg_left hpow' hbase
      omega

/-- The default policy. -/
theorem backoff_law_default : BackoffLaw defaultRestartPolicy :=
  (backoff_law_iff (by decide) (by decide)).mpr
    ⟨by decide, .inr ⟨5, by decide, by decide, by decide⟩⟩

/-- A base above the limit is not cut for the first restart, and a limit close to the largest
    duration is missed by an overflow. -/
theorem backoff_above_limit :
    let capped : RestartPolicy := ⟨5, 300000000000, 60000000000⟩
    let large : RestartPolicy := ⟨5, 4611686018427387904, 4611686018427387905⟩
    capped.backoff 1 = 300000000000 ∧ capped.backoff 2 = 60000000000 ∧ ¬ BackoffLaw capped ∧
      large.backoff 2 < 0 ∧ ¬ BackoffLaw large := by
  intro capped large
  refine ⟨by decide, by decide, fun h => ?_, by decide, fun h => ?_⟩
  · exact absurd (h.le_max 1 (by decide)) (by decide)
  · exact absurd (h.nonneg 2 (by decide)) (by decide)

end Control.RestartPolicy

/-! ## Fetches -/

variable {maxRetries : ℤ} {rounds : List FetchRound} {n : ℕ} {d : Int64}

/-- Each wait depends only on the number of failures before it. -/
theorem fetchLoop_waits {attempt : ℕ} (h : (fetchLoop maxRetries attempt rounds).1[n]? = some d) :
    d = fetchBackoff (attempt + n) := by
  fun_induction fetchLoop maxRetries attempt rounds generalizing n with
  | case1 | case2 | case3 | case6 => simp at h
  | case4 attempt =>
    cases n with
    | zero => simpa using h.symm
    | succ n => simp at h
  | case5 attempt err rounds _ waits result heq ih =>
    cases n with
    | zero => simpa using h.symm
    | succ n =>
      rw [heq] at ih
      rw [ih h, Nat.add_right_comm]
      rfl

/-- With unlimited retries there is a wait after every failure. -/
theorem fetchLoop_failing (errs : List String) (attempt : ℕ) :
    (fetchLoop (-1) attempt (errs.map (.failed · none none))).1 =
      (List.range' attempt errs.length).map fetchBackoff := by
  induction errs generalizing attempt with
  | nil => rfl
  | cons err errs ih => simp [fetchLoop, ih, range'_succ]

theorem fetchBackoff_of_ge (h : 64 ≤ n) : fetchBackoff n = 0 := by
  have hshift : 1#64 <<< n = 0#64 := BitVec.shiftLeft_eq_zero h
  rw [fetchBackoff, hshift]
  decide

theorem fetchBackoff_eq_iff : (fetchBackoff n).toInt = min (2 ^ n * 1000000000) 30000000000 ↔
      n ≤ 33 ∨ n ∈ [37, 41, 42, 45, 47, 50, 51, 53] := by
  by_cases h : n < 64
  · revert n
    decide
  · have hpow : (0 : ℤ) < 2 ^ n := Int.pow_pos (by decide)
    have hzero : (0 : Int64).toInt = 0 := by decide
    rw [fetchBackoff_of_ge (by omega), hzero]
    simp only [mem_cons, not_mem_nil, or_false]
    omega

/-- The waits of a fetch that are the doubled second up to 30 seconds. -/
theorem fetch_delay_iff (h : (fetchWithRetry maxRetries rounds).1[n]? = some d) :
    d.toInt = min (2 ^ n * 1000000000) 30000000000 ↔
      n ≤ 33 ∨ n ∈ [37, 41, 42, 45, 47, 50, 51, 53] := by
  rw [fetchLoop_waits h, Nat.zero_add]
  exact fetchBackoff_eq_iff

/-- The wait after the sixth failure. -/
theorem fetch_delay_sixth :
    let rounds := replicate 6 (FetchRound.failed "no broker" none none)
    (fetchWithRetry 10 rounds).1[5]? = some 30000000000 ∧
      (30000000000 : Int64).toInt = min (2 ^ 5 * 1000000000) 30000000000 := by
  intro rounds
  have hwait : (fetchWithRetry 10 rounds).1[5]? = some 30000000000 := by decide
  exact ⟨hwait, (fetch_delay_iff hwait).mpr (.inl (by decide))⟩

/-- A broker that stays away: the 35th wait is negative and the 65th is none at all. -/
theorem fetch_without_delay :
    let waits := (fetchWithRetry (-1) (replicate 65 (.failed "no broker" none none))).1
    waits[33]? = some 30000000000 ∧ (∃ d : Int64, d < 0 ∧ waits[34]? = some d) ∧
      waits[64]? = some 0 := by
  have hwaits := fetchLoop_failing (replicate 65 "no broker") 0
  rw [map_replicate, length_replicate] at hwaits
  intro waits
  have heq : waits = (range' 0 65).map fetchBackoff := hwaits
  rw [heq]
  exact ⟨by decide, ⟨fetchBackoff 34, by decide, by decide⟩, by decide⟩

end Weibo
