import Mathlib
import Weibo.ForStd.Rounding
import Weibo.Model.FieldOperators

/-!
# Comparing integers in filters

Two integers are equal for a filter if they are: both are read as `int64`. For the order they are
read as `float64`, which has 53 bits for the significand, so that different integers may have
neither order.

## Key results

- `comparesAs_of_abs_le`: integers of up to 53 bits are compared as such
- `compares_iff`: filters compare two integers as such exactly if they are the same or their
  nearest floating-point numbers differ
-/

namespace Weibo

open Rounding (roundNearest)

/-- An integer in decimal digits. -/
def IntegerLiteral (s : String) (n : ℤ) : Prop :=
  ∃ ds : List Char, ds ≠ [] ∧ (∀ c ∈ ds, c.isDigit = true) ∧
    (s.toList = ds ∧ n = Nat.ofDigitChars 10 ds 0 ∨
      s.toList = '-' :: ds ∧ n = -Nat.ofDigitChars 10 ds 0)

/-- The values of `int64`. -/
def IsInt64 (n : ℤ) : Prop := -9223372036854775808 ≤ n ∧ n ≤ 9223372036854775807

instance (n : ℤ) : Decidable (IsInt64 n) :=
  inferInstanceAs (Decidable (-9223372036854775808 ≤ n ∧ n ≤ 9223372036854775807))

/-- `ParseFloat` rounds integers to the nearest number with 53 bits, and the numbers compare as the
    integers they are. -/
structure Formats.RoundsIntegers (lib : Formats) : Prop where
  parse : ∀ {s n}, IntegerLiteral s n → IsInt64 n → ∃ x, lib.parseFloat s = some x
  lt : ∀ {s t m n x y}, IntegerLiteral s m → IsInt64 m → IntegerLiteral t n → IsInt64 n →
    lib.parseFloat s = some x → lib.parseFloat t = some y →
    lib.lt x y = decide (roundNearest 53 m < roundNearest 53 n)

/-! ## Literals -/

theorem integerLiteral_toString (n : ℤ) : IntegerLiteral (toString n) n := by
  have hdigits : ∀ (k : ℕ), ∀ c ∈ Nat.toDigits 10 k, c.isDigit = true :=
    fun k c hc => Nat.isDigit_of_mem_toDigits (by decide) (by decide) hc
  rw [Int.toString_eq_repr, Int.repr_eq_if]
  split
  · refine ⟨_, Nat.toDigits_ne_nil, hdigits n.toNat, .inl ⟨Nat.toList_repr, ?_⟩⟩
    rw [Nat.ofDigitChars_ten_toDigits]
    omega
  · refine ⟨_, Nat.toDigits_ne_nil, hdigits (-n).toNat, .inr ⟨?_, ?_⟩⟩
    · rw [String.toList_append, Nat.toList_repr]
      rfl
    · rw [Nat.ofDigitChars_ten_toDigits]
      omega

/-- Integers are read exactly. -/
theorem parseInt64_of_literal {s : String} {n : ℤ} (h : IntegerLiteral s n) (hn : IsInt64 n) :
    parseInt64 s = some n := by
  obtain ⟨ds, hne, hdigits, hs⟩ := h
  have hall : (ds.isEmpty || !ds.all Char.isDigit) = false := by
    simpa [hne] using hdigits
  have hsign : ∀ c cs, ds = c :: cs → c ≠ '-' ∧ c ≠ '+' := by
    intro c cs heq
    have hc := hdigits c (by rw [heq]; exact List.mem_cons_self)
    constructor <;> rintro rfl <;> simp at hc
  unfold parseInt64
  cases hs with
  | inl hs =>
    obtain ⟨hs, rfl⟩ := hs
    rw [hs]
    split
    rename_i heq
    split at heq
    · exact absurd rfl (hsign '-' _ rfl).1
    · exact absurd rfl (hsign '+' _ rfl).2
    · cases heq
      simp only [hall, Bool.false_eq_true, if_false]
      exact if_pos hn
  | inr hs =>
    obtain ⟨hs, rfl⟩ := hs
    rw [hs]
    simp only [hall, Bool.false_eq_true, if_false, if_true]
    exact if_pos hn

/-! ## Comparisons -/

/-- The six comparisons of a field with a value are those of two integers. -/
structure ComparesAs (lib : Formats) (field target : Value) (a b : ℤ) : Prop where
  less : compareField lib "less_than" (some field) target = .ok (decide (a < b))
  equal : compareField lib "equals" (some field) target = .ok (decide (a = b))
  greater : compareField lib "greater_than" (some field) target = .ok (decide (b < a))
  greaterOrEqual : compareField lib "greater_than_or_equal" (some field) target =
    .ok (decide (b < a) || decide (a = b))
  lessOrEqual : compareField lib "less_than_or_equal" (some field) target =
    .ok (decide (a < b) || decide (a = b))
  notEqual : compareField lib "not_equals" (some field) target = .ok !decide (a = b)

variable {lib : Formats} {literal : String} {a b : ℤ}

theorem valuesEqual_int (h : IntegerLiteral literal a) (ha : IsInt64 a) (hb : IsInt64 b) :
    valuesEqual lib (.number literal) (.int b) = decide (a = b) := by
  simp only [valuesEqual, asNumber, numbersEqual, parseInt64_of_literal h ha,
    parseInt64_of_literal (integerLiteral_toString b) hb]

theorem orderedCmp_int (hlib : lib.RoundsIntegers) (h : IntegerLiteral literal a) (ha : IsInt64 a)
    (hb : IsInt64 b) (pred : Ordering → Bool) :
    orderedCmp lib (.number literal) (.int b) pred =
      pred (cmp (roundNearest 53 a) (roundNearest 53 b)) := by
  have hb' := integerLiteral_toString b
  obtain ⟨x, hx⟩ := hlib.parse h ha
  obtain ⟨y, hy⟩ := hlib.parse hb' hb
  simp only [orderedCmp, asFloat, asNumber, Option.bind_some, hx, hy,
    hlib.lt h ha hb' hb hx hy, hlib.lt hb' hb h ha hy hx, decide_eq_true_eq, cmp, cmpUsing]

/-- The comparisons are those of the integers exactly if the rounded numbers are in the same order
    as the integers. -/
theorem comparesAs_iff_cmp (hlib : lib.RoundsIntegers) (h : IntegerLiteral literal a)
    (ha : IsInt64 a) (hb : IsInt64 b) :
    ComparesAs lib (.number literal) (.int b) a b ↔
      cmp (roundNearest 53 a) (roundNearest 53 b) = cmp a b := by
  have hcmp := orderedCmp_int hlib h ha hb
  have heq := @valuesEqual_int lib literal a b h ha hb
  constructor
  · intro hcompares
    have hless := Except.ok.inj hcompares.less
    have hgreater := Except.ok.inj hcompares.greater
    rw [hcmp, decide_eq_decide] at hless hgreater
    cases hab : cmp a b with
    | lt => exact hless.mpr ((cmp_eq_lt_iff a b).mp hab)
    | gt => exact hgreater.mpr ((cmp_eq_gt_iff a b).mp hab)
    | eq =>
      obtain rfl := (cmp_eq_eq_iff a b).mp hab
      exact cmp_self_eq_eq _
  · intro hsame
    constructor
    · refine congrArg Except.ok ?_
      rw [hcmp, hsame, decide_eq_decide, cmp_eq_lt_iff]
    · exact congrArg Except.ok heq
    · refine congrArg Except.ok ?_
      rw [hcmp, hsame, decide_eq_decide, cmp_eq_gt_iff]
    · refine congrArg Except.ok ?_
      rw [hcmp, hsame, ← Bool.decide_or, decide_eq_decide, Ne, cmp_eq_lt_iff]
      omega
    · refine congrArg Except.ok ?_
      rw [hcmp, hsame, ← Bool.decide_or, decide_eq_decide, Ne, cmp_eq_gt_iff]
      omega
    · exact congrArg Except.ok (congrArg not heq)

/-- Integers of up to 53 bits are compared as such. -/
theorem comparesAs_of_abs_le (hlib : lib.RoundsIntegers) (h : IntegerLiteral literal a)
    (ha : |a| ≤ 2 ^ 53) (hb : |b| ≤ 2 ^ 53) : ComparesAs lib (.number literal) (.int b) a b := by
  have hround : ∀ {x : ℤ}, |x| ≤ 2 ^ 53 → IsInt64 x ∧ roundNearest 53 x = x := by
    intro x hx
    refine ⟨?_, Rounding.roundNearest_eq_self (by decide) ⟨x, 0, hx, by simp⟩⟩
    rw [abs_le] at hx
    unfold IsInt64
    omega
  rw [comparesAs_iff_cmp hlib h (hround ha).1 (hround hb).1, (hround ha).2, (hround hb).2]

/-- Filters compare two integers as such exactly if they are the same or their nearest
    floating-point numbers differ. -/
theorem compares_iff (hlib : lib.RoundsIntegers) (h : IntegerLiteral literal a) (ha : IsInt64 a)
    (hb : IsInt64 b) :
    ComparesAs lib (.number literal) (.int b) a b ↔
      a = b ∨ roundNearest 53 a ≠ roundNearest 53 b := by
  rw [comparesAs_iff_cmp hlib h ha hb]
  have hmono : ∀ {x y : ℤ}, x < y → roundNearest 53 x ≤ roundNearest 53 y :=
    fun hlt => Rounding.roundNearest_mono (by decide) (Int.le_of_lt hlt)
  cases hab : cmp a b with
  | lt =>
    have hlt := (cmp_eq_lt_iff a b).mp hab
    have hle := hmono hlt
    rw [cmp_eq_lt_iff]
    omega
  | gt =>
    have hlt := (cmp_eq_gt_iff a b).mp hab
    have hle := hmono hlt
    rw [cmp_eq_gt_iff]
    omega
  | eq =>
    obtain rfl := (cmp_eq_eq_iff a b).mp hab
    simp

/-- A library whose floating-point numbers are the rounded integers. -/
def integerFormats : Formats where
  Float64 := ℤ
  parseFloat s := (parseInt64 s).map (roundNearest 53)
  lt x y := decide (x < y)
  eq x y := decide (x = y)
  sprint _ := ""

theorem integerFormats_parseFloat {s : String} {n : ℤ} (h : IntegerLiteral s n) (hn : IsInt64 n) :
    integerFormats.parseFloat s = some (roundNearest 53 n) := by
  show (parseInt64 s).map (roundNearest 53) = _
  rw [parseInt64_of_literal h hn, Option.map_some]

theorem integerFormats_rounds : integerFormats.RoundsIntegers where
  parse h hn := ⟨_, integerFormats_parseFloat h hn⟩
  lt hs hm ht hn hx hy := by
    cases (integerFormats_parseFloat hs hm).symm.trans hx
    cases (integerFormats_parseFloat ht hn).symm.trans hy
    rfl

theorem compares_small : ComparesAs integerFormats (.number "-7") (.int 12) (-7) 12 := by
  have hliteral : IntegerLiteral "-7" (-7) :=
    ⟨['7'], by decide, by simp, .inr ⟨by decide, by decide⟩⟩
  exact (compares_iff integerFormats_rounds hliteral (by decide) (by decide)).mpr
    (.inr (by decide))

/-- Just above 2 ^ 53 two neighbours have the same nearest number, so that neither is less, and they
    are not equal. -/
theorem neighbours_not_ordered :
    let field : Value := .number "9007199254740993"
    let compare op := compareField integerFormats op (some field) (.int 9007199254740992)
    compare "greater_than" = .ok false ∧ compare "equals" = .ok false ∧
      compare "less_than" = .ok false ∧ compare "greater_than_or_equal" = .ok true ∧
      ¬ ComparesAs integerFormats field (.int 9007199254740992) 9007199254740993
        9007199254740992 := by
  intro field compare
  have hgreater : compare "greater_than" = .ok false := by decide
  refine ⟨hgreater, by decide, by decide, by decide, fun h => ?_⟩
  have hgreater' := h.greater
  rw [show compareField integerFormats "greater_than" (some field) (.int 9007199254740992) =
    .ok false from hgreater] at hgreater'
  simp at hgreater'

end Weibo
