import Mathlib.Algebra.Group.Nat.Defs
import Mathlib.Data.Char
import Mathlib.Data.List.DropRight
import Mathlib.Data.List.Lex
import Mathlib.Order.Basic

/-!
# Order of decimal texts

Numbers written with the same number of digits are ordered as their texts are. Dropping trailing
zeros from the texts breaks this: what follows the digits is then compared with a digit. If it is
greater than every digit, the smaller of two numbers has the greater text exactly when its digits
are where those of the other number start.

## Key results

- `padded_append_lt`: the order of fixed-width texts
- `trimmed_append_lt`: when dropping trailing zeros turns the order around
-/

open Nat

namespace Decimal

open List

/-! ## Texts -/

/-- The last `n` decimal digits of a number. -/
def padded : ℕ → ℕ → List Char
  | 0, _ => []
  | n + 1, a => Nat.digitChar (a / 10 ^ n % 10) :: padded n (a % 10 ^ n)

/-- The same without trailing zeros. -/
def trimmed (n a : ℕ) : List Char := (padded n a).rdropWhile (· == '0')

variable {n a b : ℕ}

/-- One more digit after the first `n` of a number below `10 ^ (n + 1)`. -/
theorem digit_lt (h : a < 10 ^ (n + 1)) : a / 10 ^ n < 10 := by
  rw [Nat.div_lt_iff_lt_mul (Nat.pow_pos (by decide)), Nat.mul_comm, ← Nat.pow_succ]
  exact h

theorem padded_succ (h : a < 10 ^ (n + 1)) :
    padded (n + 1) a = digitChar (a / 10 ^ n) :: padded n (a % 10 ^ n) := by
  rw [padded, mod_eq_of_lt (digit_lt h)]

theorem digitChar_lt {d e : ℕ} (hd : d < 10) (he : e < 10) :
    d.digitChar < e.digitChar ↔ d < e := by
  have hall : ∀ d < 10, ∀ e < 10, d.digitChar < e.digitChar ↔ d < e := by decide
  exact hall d hd e he

theorem digitChar_inj {d e : ℕ} (hd : d < 10) (he : e < 10) :
    d.digitChar = e.digitChar ↔ d = e := by
  have hall : ∀ d < 10, ∀ e < 10, d.digitChar = e.digitChar ↔ d = e := by decide
  exact hall d hd e he

theorem digitChar_le_nine {d : ℕ} (hd : d < 10) : d.digitChar ≤ '9' := by
  have hall : ∀ d < 10, d.digitChar ≤ '9' := by decide
  exact hall d hd

/-! ## Fixed width -/

/-- Texts that start with numbers of the same width. -/
theorem padded_append_lt (ha : a < 10 ^ n) (hb : b < 10 ^ n) (x y : List Char) :
    padded n a ++ x < padded n b ++ y ↔ a < b ∨ a = b ∧ x < y := by
  induction n generalizing a b with
  | zero =>
    obtain rfl : a = 0 := by omega
    obtain rfl : b = 0 := by omega
    simp [padded]
  | succ n ih =>
    have hpos : 0 < 10 ^ n := Nat.pow_pos (by decide)
    have hqa := digit_lt ha
    have hqb := digit_lt hb
    rw [padded_succ ha, padded_succ hb, cons_append, cons_append, cons_lt_cons_iff,
      digitChar_lt hqa hqb, digitChar_inj hqa hqb, ih (mod_lt a hpos) (mod_lt b hpos)]
    -- compare the first digits, then the rest
    have hdiva := div_add_mod a (10 ^ n)
    have hdivb := div_add_mod b (10 ^ n)
    have hra := mod_lt a hpos
    have hrb := mod_lt b hpos
    constructor
    · rintro (hlt | ⟨heq, hlt | ⟨hr, hlt⟩⟩)
      · left
        by_contra hle
        exact absurd (Nat.div_le_div_right (Nat.le_of_not_lt hle)) (Nat.not_le_of_lt hlt)
      · rw [heq] at hdiva
        exact .inl (by omega)
      · rw [heq] at hdiva
        exact .inr ⟨by omega, hlt⟩
    · rintro (hlt | ⟨rfl, hlt⟩)
      · rcases Nat.lt_or_eq_of_le (Nat.div_le_div_right (c := 10 ^ n) (Nat.le_of_lt hlt)) with h | h
        · exact .inl h
        · rw [h] at hdiva
          exact .inr ⟨h, .inl (by omega)⟩
      · exact .inr ⟨rfl, .inr ⟨rfl, hlt⟩⟩

/-! ## Without trailing zeros -/

theorem trimmed_zero (n : ℕ) : trimmed n 0 = [] := by
  rw [trimmed, rdropWhile_eq_nil_iff]
  induction n with
  | zero => exact fun c hc => absurd hc not_mem_nil
  | succ n ih =>
    intro c hc
    rw [padded, Nat.zero_div, Nat.zero_mod, Nat.zero_mod] at hc
    rcases mem_cons.mp hc with rfl | hc
    · rfl
    · exact ih c hc

theorem trimmed_ne_nil (ha : a < 10 ^ n) (hne : a ≠ 0) : trimmed n a ≠ [] := by
  rw [trimmed, Ne, rdropWhile_eq_nil_iff]
  induction n generalizing a with
  | zero => omega
  | succ n ih =>
    intro hall
    rw [padded_succ ha, forall_mem_cons] at hall
    have hdigit : a / 10 ^ n = 0 := by
      rw [← digitChar_inj (digit_lt ha) (by decide)]
      exact eq_of_beq hall.1
    refine ih (Nat.mod_lt a (Nat.pow_pos (by decide))) (fun hzero => hne ?_) hall.2
    have hdiv := div_add_mod a (10 ^ n)
    rw [hdigit, hzero] at hdiv
    omega

theorem rdropWhile_cons {α : Type*} {p : α → Bool} {c : α} {l : List α}
    (h : (c :: l).rdropWhile p ≠ []) : (c :: l).rdropWhile p = c :: l.rdropWhile p := by
  induction l using reverseRecOn with
  | nil =>
    rw [rdropWhile_singleton] at h ⊢
    split
    · rw [if_pos ‹_›] at h
      exact absurd rfl h
    · rfl
  | append_singleton l x ih =>
    rw [← cons_append, rdropWhile_concat] at h ⊢
    rw [rdropWhile_concat]
    split
    · rw [if_pos ‹_›] at h
      exact ih h
    · rfl

theorem trimmed_succ (ha : a < 10 ^ (n + 1)) (hne : a ≠ 0) :
    trimmed (n + 1) a = digitChar (a / 10 ^ n) :: trimmed n (a % 10 ^ n) := by
  have hnil := trimmed_ne_nil ha hne
  rw [trimmed, padded_succ ha] at hnil ⊢
  exact rdropWhile_cons hnil

theorem trimmed_inj (ha : a < 10 ^ n) (hb : b < 10 ^ n) (h : trimmed n a = trimmed n b) : a = b := by
  induction n generalizing a b with
  | zero => omega
  | succ n ih =>
    have hpos : 0 < 10 ^ n := Nat.pow_pos (by decide)
    by_cases hzero : a = 0
    · subst hzero
      rw [trimmed_zero] at h
      by_contra hne
      exact trimmed_ne_nil hb (Ne.symm hne) h.symm
    · have hbzero : b ≠ 0 := by
        rintro rfl
        rw [trimmed_zero] at h
        exact trimmed_ne_nil ha hzero h
      rw [trimmed_succ ha hzero, trimmed_succ hb hbzero, cons.injEq,
        digitChar_inj (digit_lt ha) (digit_lt hb)] at h
      have hrest := ih (mod_lt a hpos) (mod_lt b hpos) h.2
      rw [← div_add_mod a (10 ^ n), ← div_add_mod b (10 ^ n), h.1, hrest]

/-- The smaller of two numbers has the greater text, if a character above all digits follows,
    exactly when the other number is less than a power of ten away that divides it. -/
theorem trimmed_append_lt {z : Char} (hz : '9' < z) (hab : a < b) (hb : b < 10 ^ n)
    (x y : List Char) :
    trimmed n b ++ z :: x < trimmed n a ++ z :: y ↔ ∃ k ≤ n, 10 ^ k ∣ a ∧ b < a + 10 ^ k := by
  induction n generalizing a b with
  | zero => omega
  | succ n ih =>
    have ha : a < 10 ^ (n + 1) := lt_trans hab hb
    have hpos : 0 < 10 ^ n := Nat.pow_pos (by decide)
    have hqa := digit_lt ha
    have hqb := digit_lt hb
    rw [trimmed_succ hb (by omega), cons_append]
    by_cases hzero : a = 0
    · -- nothing is left of `a`, and every digit is below `z`
      subst hzero
      rw [trimmed_zero, nil_append, cons_lt_cons_iff]
      exact ⟨fun _ => ⟨n + 1, Nat.le_refl _, Nat.dvd_zero _, by omega⟩,
        fun _ => .inl (lt_of_le_of_lt (digitChar_le_nine hqb) hz)⟩
    · have hdiva := div_add_mod a (10 ^ n)
      have hdivb := div_add_mod b (10 ^ n)
      have hra := mod_lt a hpos
      have hrb := mod_lt b hpos
      -- only a power up to `10 ^ n` can divide `a`, and then it divides the rest of `a`
      have hdvd : ∀ k ≤ n + 1, 10 ^ k ∣ a → k ≤ n ∧ 10 ^ k ∣ a % 10 ^ n := by
        intro k hk hdvd
        have hkn : k ≤ n := by
          by_contra hgt
          obtain rfl : k = n + 1 := by omega
          exact hzero (eq_zero_of_dvd_of_lt hdvd ha)
        exact ⟨hkn, (Nat.dvd_mod_iff (Nat.pow_dvd_pow 10 hkn)).mpr hdvd⟩
      rw [trimmed_succ ha hzero, cons_append, cons_lt_cons_iff, digitChar_lt hqb hqa,
        digitChar_inj hqb hqa]
      rcases Nat.lt_or_eq_of_le (Nat.div_le_div_right (c := 10 ^ n) (Nat.le_of_lt hab)) with hlt | heq
      · -- the first digits differ, and `b` is beyond the next multiple of `10 ^ n`
        refine ⟨fun h => ?_, ?_⟩
        · omega
        · rintro ⟨k, hk, hka, hlt'⟩
          obtain ⟨hkn, hka⟩ := hdvd k hk hka
          have hstep : 10 ^ k ≤ 10 ^ n - a % 10 ^ n :=
            Nat.le_of_dvd (by omega) (Nat.dvd_sub (Nat.pow_dvd_pow 10 hkn) hka)
          have hnext : 10 ^ n * (a / 10 ^ n + 1) ≤ 10 ^ n * (b / 10 ^ n) :=
            Nat.mul_le_mul_left _ hlt
          rw [Nat.mul_add, Nat.mul_one] at hnext
          omega
      · rw [heq] at hdiva
        have hih := ih (a := a % 10 ^ n) (b := b % 10 ^ n) (by omega) hrb
        constructor
        · rintro (h | ⟨-, h⟩)
          · omega
          · obtain ⟨k, hk, hka, hlt⟩ := hih.mp h
            exact ⟨k, Nat.le_succ_of_le hk, (Nat.dvd_mod_iff (Nat.pow_dvd_pow 10 hk)).mp hka, by omega⟩
        · rintro ⟨k, hk, hka, hlt⟩
          obtain ⟨hkn, hka⟩ := hdvd k hk hka
          exact .inr ⟨heq.symm, hih.mpr ⟨k, hkn, hka, by omega⟩⟩

end Decimal
