import Mathlib.Data.List.AList
import Mathlib.Data.List.Sort
import Mathlib.Tactic.SplitIfs

/-!
# Byte strings through JSON

A Go string is any sequence of bytes. `encoding/json` writes it as UTF-8 and puts the replacement
character U+FFFD in place of each byte that does not belong to a valid encoding (`utf8.DecodeRune`
reports such a byte as an error of length one). A map with string keys is written with its members
in the order of their keys, and when it is read the last one of equal members stays.

## Key results

- `coerceUtf8_eq_iff`: a string comes back as it was exactly if it is valid
- `lookup_jsonMap_iff`: a map comes back as it was exactly if all its keys are
-/

namespace Utf8

open List

/-! ## Runes -/

/-- A continuation byte. -/
def isTail (b : UInt8) : Bool := 0x80 ≤ b && b ≤ 0xBF

/-- The first two bytes of an encoding of three; neither overlong nor a surrogate. -/
def startsThree (b c : UInt8) : Bool :=
  (b == 0xE0 && 0xA0 ≤ c && c ≤ 0xBF) || (0xE1 ≤ b && b ≤ 0xEC && isTail c) ||
    (b == 0xED && 0x80 ≤ c && c ≤ 0x9F) || (0xEE ≤ b && b ≤ 0xEF && isTail c)

/-- The first two bytes of an encoding of four; not overlong and up to U+10FFFF. -/
def startsFour (b c : UInt8) : Bool :=
  (b == 0xF0 && 0x90 ≤ c && c ≤ 0xBF) || (0xF1 ≤ b && b ≤ 0xF3 && isTail c) ||
    (b == 0xF4 && 0x80 ≤ c && c ≤ 0x8F)

/-- The length of the encoding at the start of a string, zero if there is none. -/
def runeLength : List UInt8 → ℕ
  | [] => 0
  | [b] => if b < 0x80 then 1 else 0
  | [b, c] => if b < 0x80 then 1 else if 0xC2 ≤ b && b ≤ 0xDF && isTail c then 2 else 0
  | [b, c, d] =>
    if b < 0x80 then 1
    else if 0xC2 ≤ b && b ≤ 0xDF && isTail c then 2
    else if startsThree b c && isTail d then 3
    else 0
  | b :: c :: d :: e :: _ =>
    if b < 0x80 then 1
    else if 0xC2 ≤ b && b ≤ 0xDF && isTail c then 2
    else if startsThree b c && isTail d then 3
    else if startsFour b c && isTail d && isTail e then 4
    else 0

variable {b : UInt8}

theorem isTail_eq_false (h : b < 0x80) : isTail b = false := by
  rw [isTail, Bool.and_eq_false_iff]
  exact .inl (decide_eq_false (UInt8.not_le.mpr h))

theorem startsThree_eq_false (b : UInt8) {c : UInt8} (h : c < 0x80) : startsThree b c = false := by
  have hA0 : ¬ 0xA0 ≤ c := fun hle => by
    have := UInt8.le_trans hle (UInt8.le_of_lt h)
    simp at this
  have h80 : ¬ 0x80 ≤ c := UInt8.not_le.mpr h
  simp [startsThree, isTail_eq_false h, hA0, h80]

theorem startsFour_eq_false (b : UInt8) {c : UInt8} (h : c < 0x80) : startsFour b c = false := by
  have h90 : ¬ 0x90 ≤ c := fun hle => by
    have := UInt8.le_trans hle (UInt8.le_of_lt h)
    simp at this
  have h80 : ¬ 0x80 ≤ c := UInt8.not_le.mpr h
  simp [startsFour, isTail_eq_false h, h90, h80]

theorem runeLength_le (s : List UInt8) : runeLength s ≤ s.length := by
  match s with
  | [] => simp [runeLength]
  | [b] => simp only [runeLength, length_singleton]; split_ifs <;> omega
  | [b, c] => simp only [runeLength, length_cons]; split_ifs <;> omega
  | [b, c, d] => simp only [runeLength, length_cons]; split_ifs <;> omega
  | b :: c :: d :: e :: s => simp only [runeLength, length_cons]; split_ifs <;> omega

/-- An ASCII byte is an encoding of its own. -/
theorem runeLength_ascii (h : b < 0x80) (s : List UInt8) : runeLength (b :: s) = 1 := by
  match s with
  | [] => simp [runeLength, h]
  | [c] => simp [runeLength, h]
  | [c, d] => simp [runeLength, h]
  | c :: d :: e :: s => simp [runeLength, h]

/-- No encoding goes on with an ASCII byte. -/
theorem runeLength_append {a : UInt8} (ha : a < 0x80) (b : UInt8) (s t : List UInt8) :
    runeLength (b :: s ++ a :: t) = runeLength (b :: s) := by
  have htail := isTail_eq_false ha
  have hthree := fun b => startsThree_eq_false b ha
  have hfour := fun b => startsFour_eq_false b ha
  match s with
  | [] => match t with
    | [] => simp [runeLength, htail]
    | [x] => simp [runeLength, htail, hthree]
    | x :: y :: t => simp [runeLength, htail, hthree, hfour]
  | [c] => match t with
    | [] => simp [runeLength, htail]
    | x :: t => simp [runeLength, htail]
  | [c, d] => simp [runeLength, htail]
  | c :: d :: e :: s => simp [runeLength]

/-- An encoding of two bytes or more. -/
theorem runeLength_two {c : UInt8} (hb : ¬ b < 0x80) (h : (0xC2 ≤ b && b ≤ 0xDF && isTail c) = true)
    (s : List UInt8) : runeLength (b :: c :: s) = 2 := by
  match s with
  | [] => rw [runeLength, if_neg hb, if_pos h]
  | [d] => rw [runeLength, if_neg hb, if_pos h]
  | d :: e :: s => rw [runeLength, if_neg hb, if_pos h]

theorem runeLength_three {c d : UInt8} (hb : ¬ b < 0x80)
    (hc : ¬ (0xC2 ≤ b && b ≤ 0xDF && isTail c) = true) (h : (startsThree b c && isTail d) = true)
    (s : List UInt8) : runeLength (b :: c :: d :: s) = 3 := by
  match s with
  | [] => rw [runeLength, if_neg hb, if_neg hc, if_pos h]
  | e :: s => rw [runeLength, if_neg hb, if_neg hc, if_pos h]

variable {s : List UInt8} {n : ℕ}

/-- The bytes behind an encoding play no role. -/
theorem runeLength_congr {s' : List UInt8} (h : runeLength (b :: s) = n + 1)
    (htake : s'.take n = s.take n) : runeLength (b :: s') = n + 1 := by
  by_cases hb : b < 0x80
  · rw [runeLength_ascii hb] at h ⊢
    exact h
  -- one case for each length; an encoding that is cut short has length 0
  match s with
  | [] => rw [runeLength, if_neg hb] at h; omega
  | c :: s =>
    by_cases hc : (0xC2 ≤ b && b ≤ 0xDF && isTail c) = true
    · rw [runeLength_two hb hc] at h
      obtain rfl : n = 1 := by omega
      cases s' with
      | nil => simp at htake
      | cons c' s' =>
        obtain rfl : c' = c := by simpa using htake
        exact runeLength_two hb hc s'
    · match s with
      | [] => rw [runeLength, if_neg hb, if_neg hc] at h; omega
      | d :: s =>
        by_cases hd : (startsThree b c && isTail d) = true
        · rw [runeLength_three hb hc hd] at h
          obtain rfl : n = 2 := by omega
          match s' with
          | [] => simp at htake
          | [c'] => simp at htake
          | c' :: d' :: s' =>
            obtain ⟨rfl, rfl⟩ : c' = c ∧ d' = d := by simpa using htake
            exact runeLength_three hb hc hd s'
        · match s with
          | [] => rw [runeLength, if_neg hb, if_neg hc, if_neg hd] at h; omega
          | e :: s =>
            rw [runeLength, if_neg hb, if_neg hc, if_neg hd] at h
            by_cases he : (startsFour b c && isTail d && isTail e) = true
            · rw [if_pos he] at h
              obtain rfl : n = 3 := by omega
              match s' with
              | [] => simp at htake
              | [c'] => simp at htake
              | [c', d'] => simp at htake
              | c' :: d' :: e' :: s' =>
                obtain ⟨rfl, rfl, rfl⟩ : c' = c ∧ d' = d ∧ e' = e := by simpa using htake
                rw [runeLength, if_neg hb, if_neg hc, if_neg hd, if_pos he]
            · rw [if_neg he] at h
              omega

/-! ## Strings -/

/-- A string behind the first `n` bytes, which belong to an encoding, is valid. -/
def validFrom : ℕ → List UInt8 → Bool
  | _, [] => true
  | n + 1, _ :: s => validFrom n s
  | 0, b :: s =>
    match runeLength (b :: s) with
    | 0 => false
    | n + 1 => validFrom n s

/-- `utf8.ValidString`. -/
def validUtf8 (s : List UInt8) : Bool := validFrom 0 s

/-- A string behind the first `n` bytes with U+FFFD for each invalid byte. -/
def coerceFrom : ℕ → List UInt8 → List UInt8
  | _, [] => []
  | n + 1, b :: s => b :: coerceFrom n s
  | 0, b :: s =>
    match runeLength (b :: s) with
    | 0 => 0xEF :: 0xBF :: 0xBD :: coerceFrom 0 s
    | n + 1 => b :: coerceFrom n s

/-- A string as `encoding/json` writes it and reads it back. -/
def coerceUtf8 (s : List UInt8) : List UInt8 := coerceFrom 0 s

/-- The code point of an encoding, from its first byte and the others. -/
def runeValue (b : UInt8) (tail : List UInt8) : ℕ :=
  tail.foldl (fun n c => 64 * n + c.toNat % 64)
    (if tail.isEmpty then b.toNat else b.toNat % (64 >>> tail.length))

/-- The characters of a string behind the first `n` bytes, U+FFFD for each invalid byte. -/
def decodeFrom : ℕ → List UInt8 → List Char
  | _, [] => []
  | n + 1, _ :: s => decodeFrom n s
  | 0, b :: s =>
    match runeLength (b :: s) with
    | 0 => '\uFFFD' :: decodeFrom 0 s
    | n + 1 => Char.ofNat (runeValue b (s.take n)) :: decodeFrom n s

/-- The characters of a string, as a `range` over it yields them. -/
def decodeUtf8 (s : List UInt8) : List Char := decodeFrom 0 s

theorem validFrom_invalid (h : runeLength (b :: s) = 0) : validFrom 0 (b :: s) = false := by
  rw [validFrom, h]

theorem validFrom_rune (h : runeLength (b :: s) = n + 1) :
    validFrom 0 (b :: s) = validFrom n s := by
  rw [validFrom, h]

theorem coerceFrom_invalid (h : runeLength (b :: s) = 0) :
    coerceFrom 0 (b :: s) = 0xEF :: 0xBF :: 0xBD :: coerceFrom 0 s := by
  rw [coerceFrom, h]

theorem coerceFrom_rune (h : runeLength (b :: s) = n + 1) :
    coerceFrom 0 (b :: s) = b :: coerceFrom n s := by
  rw [coerceFrom, h]

theorem take_coerceFrom (n : ℕ) (s : List UInt8) : (coerceFrom n s).take n = s.take n := by
  induction s generalizing n with
  | nil => simp [coerceFrom]
  | cons b s ih =>
    cases n with
    | zero => rfl
    | succ n => rw [coerceFrom, take_succ_cons, take_succ_cons, ih]

/-- What is written is valid. -/
theorem validFrom_coerceFrom (n : ℕ) (s : List UInt8) : validFrom n (coerceFrom n s) = true := by
  induction s generalizing n with
  | nil => simp [coerceFrom, validFrom]
  | cons b s ih =>
    cases n with
    | succ n => exact ih n
    | zero =>
      cases hlen : runeLength (b :: s) with
      | zero =>
        rw [coerceFrom_invalid hlen, validFrom_rune (n := 2)]
        · exact ih 0
        · exact runeLength_three (by decide) (by decide) (by decide) _
      | succ n =>
        rw [coerceFrom_rune hlen, validFrom_rune (runeLength_congr hlen (take_coerceFrom n s))]
        exact ih n

/-- Only invalid strings change, and those get longer. -/
theorem length_coerceFrom (n : ℕ) (s : List UInt8) : s.length ≤ (coerceFrom n s).length ∧
      ((coerceFrom n s).length = s.length → validFrom n s = true) := by
  induction s generalizing n with
  | nil => simp [coerceFrom, validFrom]
  | cons b s ih =>
    cases n with
    | succ n =>
      obtain ⟨hle, hvalid⟩ := ih n
      simp only [coerceFrom, validFrom, length_cons]
      exact ⟨by omega, fun heq => hvalid (by omega)⟩
    | zero =>
      cases hlen : runeLength (b :: s) with
      -- an invalid byte becomes the three bytes of U+FFFD
      | zero =>
        obtain ⟨hle, -⟩ := ih 0
        rw [coerceFrom_invalid hlen]
        simp only [length_cons]
        exact ⟨by omega, fun heq => by omega⟩
      | succ n =>
        obtain ⟨hle, hvalid⟩ := ih n
        rw [coerceFrom_rune hlen, validFrom_rune hlen]
        simp only [length_cons]
        exact ⟨by omega, fun heq => hvalid (by omega)⟩

theorem coerceFrom_of_valid (h : validFrom n s = true) : coerceFrom n s = s := by
  induction s generalizing n with
  | nil => simp [coerceFrom]
  | cons b s ih =>
    cases n with
    | succ n => rw [coerceFrom, ih h]
    | zero =>
      cases hlen : runeLength (b :: s) with
      | zero =>
        rw [validFrom_invalid hlen] at h
        simp at h
      | succ n =>
        rw [validFrom_rune hlen] at h
        rw [coerceFrom_rune hlen, ih h]

/-- A string comes back as it was exactly if it is valid. -/
theorem coerceUtf8_eq_iff (s : List UInt8) : coerceUtf8 s = s ↔ validUtf8 s = true := by
  constructor
  · intro heq
    exact (length_coerceFrom 0 s).2 (congrArg length heq)
  · exact coerceFrom_of_valid

theorem validUtf8_coerceUtf8 (s : List UInt8) : validUtf8 (coerceUtf8 s) = true :=
  validFrom_coerceFrom 0 s

/-- Two strings with an ASCII byte in between. -/
theorem validFrom_append {a : UInt8} (ha : a < 0x80) (hn : n ≤ s.length) (t : List UInt8) : validFrom n (s ++ a :: t) = (validFrom n s && validFrom 0 t) := by
  induction s generalizing n with
  | nil =>
    obtain rfl : n = 0 := by simpa using hn
    rw [nil_append, validFrom_rune (runeLength_ascii ha t)]
    rfl
  | cons b s ih =>
    cases n with
    | succ n => exact ih (by simpa using hn)
    | zero =>
      -- the ASCII byte is no continuation byte, so no encoding goes across it
      have happend : runeLength (b :: (s ++ a :: t)) = runeLength (b :: s) :=
        runeLength_append ha b s t
      cases hlen : runeLength (b :: s) with
      | zero =>
        rw [hlen] at happend
        rw [validFrom_invalid hlen, cons_append, validFrom_invalid happend, Bool.false_and]
      | succ n =>
        have hle := runeLength_le (b :: s)
        rw [hlen] at happend hle
        rw [validFrom_rune hlen, cons_append, validFrom_rune happend]
        exact ih (by simpa using hle)

theorem validUtf8_append {a : UInt8} (ha : a < 0x80) (s t : List UInt8) :
    validUtf8 (s ++ a :: t) = (validUtf8 s && validUtf8 t) := validFrom_append ha (Nat.zero_le _) t

theorem validUtf8_of_ascii (h : ∀ b ∈ s, b < 0x80) : validUtf8 s = true := by
  induction s with
  | nil => rfl
  | cons b s ih =>
    rw [validUtf8, validFrom_rune (runeLength_ascii (h b mem_cons_self) s)]
    exact ih fun c hc => h c (mem_cons_of_mem b hc)

/-! ## Maps -/

section Maps

variable {β : Type*}

/-- A map as `encoding/json` writes it and reads it back, given that its values come back as they
    were. -/
def jsonMap (m : AList fun _ : List UInt8 => β) : AList fun _ : List UInt8 => β :=
  (m.entries.insertionSort fun a b => a.1 ≤ b.1).foldl (fun m e => m.insert (coerceUtf8 e.1) e.2) ∅

/-- Entries with distinct keys, put into a map one after the other. -/
theorem mem_lookup_foldl_insert {ε : Type*} (f : ε → List UInt8) (g : ε → β) {es : List ε}
    (hnodup : (es.map f).Nodup) (m : AList fun _ : List UInt8 => β) (k : List UInt8) (v : β) :
    v ∈ (es.foldl (fun m e => m.insert (f e) (g e)) m).lookup k ↔
      (∃ e ∈ es, f e = k ∧ g e = v) ∨ (k ∉ es.map f ∧ v ∈ m.lookup k) := by
  induction es generalizing m with
  | nil => simp
  | cons e es ih =>
    obtain ⟨hk, hnodup⟩ := nodup_cons.mp hnodup
    rw [foldl_cons, ih hnodup]
    by_cases heq : k = f e
    · subst heq
      have hnone : ¬ ∃ e' ∈ es, f e' = f e ∧ g e' = v := fun ⟨e', he', hfe, _⟩ =>
        hk (hfe ▸ mem_map_of_mem he')
      have hhead : f e ∈ (e :: es).map f := mem_map_of_mem mem_cons_self
      simp only [hnone, hk, hhead, AList.lookup_insert, not_true_eq_false, not_false_eq_true,
        true_and, false_and, false_or, or_false, exists_mem_cons_iff, Option.mem_some_iff]
    · have hne : ¬ f e = k := fun h => heq h.symm
      simp [AList.lookup_insert_ne heq, heq, hne]

theorem mem_foldl_insert {es : List ((_ : List UInt8) × β)} {m : AList fun _ : List UInt8 => β}
    {k : List UInt8} (h : k ∈ es.foldl (fun m e => m.insert (coerceUtf8 e.1) e.2) m) :
    k ∈ m ∨ validUtf8 k = true := by
  induction es generalizing m with
  | nil => exact .inl h
  | cons e es ih =>
    cases ih h with
    | inl hmem =>
      cases (AList.mem_insert m).mp hmem with
      | inl heq => exact .inr (heq ▸ validUtf8_coerceUtf8 e.1)
      | inr hmem => exact .inl hmem
    | inr hvalid => exact .inr hvalid

/-- The keys that are read are valid. -/
theorem validUtf8_of_mem_jsonMap {m : AList fun _ : List UInt8 => β} {k : List UInt8}
    (h : k ∈ jsonMap m) : validUtf8 k = true :=
  (mem_foldl_insert h).resolve_left (AList.notMem_empty k)

/-- A map comes back as it was exactly if its keys are valid. -/
theorem lookup_jsonMap_iff (m : AList fun _ : List UInt8 => β) :
    (∀ k, (jsonMap m).lookup k = m.lookup k) ↔ ∀ k ∈ m, validUtf8 k = true := by
  constructor
  · intro hsame k hk
    apply validUtf8_of_mem_jsonMap
    rw [← AList.lookup_isSome, hsame k, AList.lookup_isSome]
    exact hk
  · intro hvalid k
    have hperm := perm_insertionSort (fun a b : (_ : List UInt8) × β => a.1 ≤ b.1) m.entries
    have hcoerce : ∀ e ∈ m.entries.insertionSort fun a b => a.1 ≤ b.1, coerceUtf8 e.1 = e.1 :=
      fun e he => (coerceUtf8_eq_iff e.1).mpr (hvalid e.1 (mem_map_of_mem (hperm.mem_iff.mp he)))
    -- valid keys stay apart, so no entry takes the place of another
    have hnodup : ((m.entries.insertionSort fun a b => a.1 ≤ b.1).map
        fun e => coerceUtf8 e.1).Nodup := by
      rw [map_congr_left hcoerce]
      exact (hperm.map Sigma.fst).nodup_iff.mpr m.nodupKeys
    apply Option.ext
    intro v
    show v ∈ (jsonMap m).lookup k ↔ v ∈ m.lookup k
    rw [jsonMap, mem_lookup_foldl_insert _ _ hnodup, AList.lookup_empty, AList.mem_lookup_iff]
    simp only [Option.not_mem_none, and_false, or_false]
    constructor
    · rintro ⟨e, he, heq, rfl⟩
      rw [hcoerce e he] at heq
      rw [← heq]
      exact hperm.mem_iff.mp he
    · intro hmem
      have hsorted := hperm.mem_iff.mpr hmem
      exact ⟨_, hsorted, hcoerce _ hsorted, rfl⟩

end Maps

end Utf8
