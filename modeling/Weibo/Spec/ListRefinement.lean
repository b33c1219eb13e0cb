import Mathlib.Data.List.Forall2
import Mathlib.Data.List.TakeWhile
import Weibo.Model.ListState

/-!
# The Pebble list state against the memory list state

The entries of a list are those whose key starts with the list's prefix, as long as no key of the
namespace, followed by a NUL byte, is the start of another key. Under that condition on the keys in
use both backends return the same results, and without it they do not.

## Key results

- `prefix_iff_bounds`: the range of a prefix is the set of keys that start with it
- `range_bounds_exact`: this, and that the entries of a list are in the order of their numbers
- `Apart.eq_of_isPrefix`: with keys apart, the entries of a list are its own
- `Refines.run`: with keys apart, the backends agree on every sequence of operations
- `pebble_lists_refine_memory_iff`: on which lists the backends agree
-/

namespace Weibo

open Function List PebbleBackend Nat ListHandle

/-! ## Byte strings -/

theorem bigEndian_length (n x : ℕ) : (bigEndian n x).length = n := by
  induction n with
  | zero => rfl
  | succ n ih => rw [bigEndian, length_cons, ih]

/-- Higher digits do not show in the last `n`. -/
theorem bigEndian_mod {n m : ℕ} (h : n ≤ m) (x : ℕ) :
    bigEndian n (x % 256 ^ m) = bigEndian n x := by
  induction n with
  | zero => rfl
  | succ n ih =>
    have hpow : 256 ^ m = 256 ^ n * 256 ^ (m - n) := by rw [← pow_add]; congr 1; omega
    have hdvd : 256 ∣ 256 ^ (m - n) := by
      simpa using Nat.pow_dvd_pow 256 (show 1 ≤ m - n by omega)
    rw [bigEndian, bigEndian, ih (by omega), hpow, mod_mul_right_div_self, mod_mod_of_dvd _ hdvd]

/-- The encoding keeps the order of numbers. -/
theorem bigEndian_lt {n x y : ℕ} (hxy : x < y) (hy : y < 256 ^ n) :
    bigEndian n x < bigEndian n y := by
  induction n generalizing x y with
  | zero => omega
  | succ n ih =>
    have hpos : 0 < 256 ^ n := Nat.pow_pos (by decide)
    have hle : x / 256 ^ n ≤ y / 256 ^ n := Nat.div_le_div_right (Nat.le_of_lt hxy)
    have hdigit : y / 256 ^ n < 256 := by
      rw [div_lt_iff_lt_mul hpos, mul_comm, ← pow_succ]
      exact hy
    have hdigit' : x / 256 ^ n < 256 := lt_of_le_of_lt hle hdigit
    rw [bigEndian, bigEndian, cons_lt_cons_iff, mod_eq_of_lt hdigit, mod_eq_of_lt hdigit']
    rcases lt_or_eq_of_le hle with hlt | heq
    · left
      rw [UInt8.lt_iff_toNat_lt, UInt8.toNat_ofNat_of_lt' hdigit', UInt8.toNat_ofNat_of_lt' hdigit]
      exact hlt
    · right
      refine ⟨by rw [heq], ?_⟩
      rw [← bigEndian_mod (le_refl n) x, ← bigEndian_mod (le_refl n) y]
      apply ih _ (mod_lt _ hpos)
      have hx := div_add_mod x (256 ^ n)
      have hy := div_add_mod y (256 ^ n)
      rw [heq] at hx
      omega

/-- Behind a byte that can go up the bytes up to it stay. -/
theorem prefixUpperBound_cons (c : UInt8) {pre : Bytes} (h : ∃ b ∈ pre, b < 0xff) :
    prefixUpperBound (c :: pre) = c :: prefixUpperBound pre := by
  obtain ⟨b, rest, hdrop⟩ : ∃ b rest, pre.reverse.dropWhile (· == 0xff) = b :: rest := by
    apply exists_cons_of_ne_nil
    intro hnil
    obtain ⟨b, hb, hlt⟩ := h
    have hff := dropWhile_eq_nil_iff.mp hnil b (mem_reverse.mpr hb)
    rw [beq_iff_eq.mp hff] at hlt
    exact absurd hlt (by decide)
  simp [prefixUpperBound, dropWhile_append, hdrop]

theorem prefixUpperBound_cons_of_max {c : UInt8} (hc : c < 0xff) {pre : Bytes}
    (h : ∀ b ∈ pre, b = 0xff) : prefixUpperBound (c :: pre) = [c + 1] := by
  have hdrop : pre.reverse.dropWhile (· == 0xff) = [] :=
    dropWhile_eq_nil_iff.mpr fun b hb => beq_iff_eq.mpr (h b (mem_reverse.mp hb))
  have hne : c ≠ 0xff := by
    rintro rfl
    exact absurd hc (by decide)
  simp [prefixUpperBound, dropWhile_append, hdrop, hne]

/-- Nothing but the keys that start with them is above bytes that cannot go up. -/
theorem le_iff_prefix_of_max {pre : Bytes} (h : ∀ b ∈ pre, b = 0xff) (k : Bytes) :
    pre ≤ k ↔ pre <+: k := by
  induction pre generalizing k with
  | nil => simp
  | cons c pre ih =>
    obtain rfl := h c mem_cons_self
    cases k with
    | nil => simp
    | cons a t =>
      have hmax : ¬ (0xff : UInt8) < a := by
        rw [UInt8.lt_iff_toNat_lt]
        have := a.toNat_lt
        simp
        omega
      rw [cons_le_cons_iff, cons_prefix_cons, ih fun b hb => h b (mem_cons_of_mem _ hb)]
      simp [hmax]

theorem eq_max_of_not_lt {b : UInt8} (h : ¬ b < 0xff) : b = 0xff := by
  have hb := b.toNat_lt
  rw [UInt8.lt_iff_toNat_lt] at h
  rw [← UInt8.toNat_inj]
  simp at h ⊢
  omega

/-- The keys below the next byte start with this one or a lower one. -/
theorem cons_lt_next_iff {a c : UInt8} (hc : c < 0xff) (t : Bytes) :
    a :: t < [c + 1] ↔ a < c ∨ a = c := by
  rw [cons_lt_cons_iff, UInt8.lt_iff_toNat_lt, UInt8.lt_iff_toNat_lt, ← UInt8.toNat_inj (b := c),
    UInt8.toNat_add]
  rw [UInt8.lt_iff_toNat_lt] at hc
  simp at hc ⊢
  omega

/-- The keys from a prefix up to its bound are those that start with it. -/
theorem prefix_iff_bounds {pre : Bytes} (h : ∃ b ∈ pre, b < 0xff) (k : Bytes) :
    pre <+: k ↔ pre ≤ k ∧ k < prefixUpperBound pre := by
  induction pre generalizing k with
  | nil => simp at h
  | cons c pre ih =>
    cases k with
    | nil => simp
    | cons a t =>
      -- below the bound the first byte is not above that of the prefix
      suffices hrest : ∀ {P Q R : Prop}, (P ↔ Q ∧ R) →
          (c = a ∧ P ↔ (c < a ∨ c = a ∧ Q) ∧ (a < c ∨ a = c ∧ R)) by
        rw [cons_prefix_cons, cons_le_cons_iff]
        by_cases hpre : ∃ b ∈ pre, b < 0xff
        · rw [prefixUpperBound_cons c hpre, cons_lt_cons_iff]
          exact hrest (ih hpre t)
        · have hmax : ∀ b ∈ pre, b = 0xff :=
            fun b hb => eq_max_of_not_lt fun hlt => hpre ⟨b, hb, hlt⟩
          have hc : c < 0xff := by
            obtain ⟨b, hb, hlt⟩ := h
            cases mem_cons.mp hb with
            | inl heq => exact heq ▸ hlt
            | inr hmem => exact absurd ⟨b, hmem, hlt⟩ hpre
          rw [prefixUpperBound_cons_of_max hc hmax, cons_lt_next_iff hc, ← and_true (a = c)]
          exact hrest (by rw [le_iff_prefix_of_max hmax, and_true])
      intro P Q R hiff
      by_cases hca : c = a
      · subst hca
        simp [Std.lt_irrefl, hiff]
      · simp only [hca, Ne.symm hca, false_and, or_false, false_iff, not_and]
        exact fun hlt hgt => Std.lt_irrefl (Std.lt_trans hlt hgt)

/-- The keys from a prefix that ends in NUL up to its bound are those that start with it. -/
theorem inRange_prefix (q x : Bytes) :
    SortedMap.inRange (q ++ [0]) (prefixUpperBound (q ++ [0])) x = true ↔ q ++ [0] <+: x := by
  rw [SortedMap.inRange, Bool.and_eq_true, decide_eq_true_eq, decide_eq_true_eq, List.not_lt,
    prefix_iff_bounds ⟨0, by simp, by decide⟩]

/-! ## Entry keys -/

namespace ListHandle

/-- What all entries of a list start with, up to the NUL behind the key. -/
def stem (h : ListHandle) : Bytes := listPrefix :: 0 :: h.ns ++ 0 :: h.key

/-- The key of an entry of the list. -/
def entryKey (h : ListHandle) (seq : ℕ) : Bytes := listEntryKey h.ns h.key seq

theorem entryKey_eq (h : ListHandle) (seq : ℕ) :
    h.entryKey seq = h.stem ++ 0 :: bigEndian 8 seq := by
  simp [entryKey, listEntryKey, stem]

theorem listPrefixBytes_eq (h : ListHandle) : listPrefixBytes h.ns h.key = h.stem ++ [0] := by
  have hkey : listEntryKey h.ns h.key 0 = (h.stem ++ [0]) ++ bigEndian 8 0 := by
    rw [← entryKey, h.entryKey_eq, append_assoc, singleton_append]
  rw [listPrefixBytes, hkey, length_append, bigEndian_length, Nat.add_sub_cancel, take_left]

theorem entryKey_lt (h : ListHandle) {seq seq' : ℕ} (hlt : seq < seq') (hseq : seq' < 2 ^ 64) :
    h.entryKey seq < h.entryKey seq' := by
  rw [h.entryKey_eq, h.entryKey_eq]
  apply append_left_lt
  rw [cons_lt_cons_iff]
  exact .inr ⟨rfl, bigEndian_lt hlt hseq⟩

/-- Sequence numbers wrap around. -/
theorem entryKey_mod (h : ListHandle) (seq : ℕ) : h.entryKey (seq % 2 ^ 64) = h.entryKey seq := by
  rw [h.entryKey_eq, h.entryKey_eq, show 2 ^ 64 = 256 ^ 8 by decide, bigEndian_mod (le_refl 8)]

/-- A list's entries start with its prefix. -/
theorem prefix_entryKey (h : ListHandle) (seq : ℕ) : h.stem ++ [0] <+: h.entryKey seq := by
  rw [h.entryKey_eq]
  exact ⟨bigEndian 8 seq, by rw [append_assoc, singleton_append]⟩

end ListHandle

/-- The range of a prefix holds the keys that start with it and no others, unless all its bytes are
    `ff`; and the entries of a list are in the order of their sequence numbers. -/
theorem range_bounds_exact :
    (∀ pre k : Bytes, (∃ b ∈ pre, b < 0xff) → (pre <+: k ↔ pre ≤ k ∧ k < prefixUpperBound pre)) ∧
      ∀ (ns key : Bytes) (seq seq' : UInt64), seq < seq' →
        listEntryKey ns key seq.toNat < listEntryKey ns key seq'.toNat := by
  refine ⟨fun pre k h => prefix_iff_bounds h k, fun ns key seq seq' hlt => ?_⟩
  exact ListHandle.entryKey_lt ⟨ns, key⟩ (UInt64.lt_iff_toNat_lt.mp hlt) seq'.toNat_lt

theorem range_bounds_exact_sample :
    ([0x6c, 0xff] : Bytes) ≤ [0x6c, 0xff, 0x01] ∧ listEntryKey [1] [2] 255 < listEntryKey [1] [2] 256 :=
  ⟨((range_bounds_exact.1 [0x6c, 0xff] [0x6c, 0xff, 0x01] ⟨0x6c, by decide, by decide⟩).mp
      (by decide)).1, range_bounds_exact.2 [1] [2] 255 256 (by decide)⟩

/-- Namespaces without NUL are told apart. -/
theorem ns_of_isPrefix {ns ns' a b : Bytes} (hns : 0 ∉ ns) (hns' : 0 ∉ ns')
    (h : ns ++ 0 :: a <+: ns' ++ 0 :: b) : ns = ns' ∧ a <+: b := by
  induction ns generalizing ns' with
  | nil =>
    cases ns' with
    | nil => exact ⟨rfl, (cons_prefix_cons.mp h).2⟩
    | cons y ns' =>
      obtain rfl := (cons_prefix_cons.mp h).1
      exact absurd mem_cons_self hns'
  | cons x ns ih =>
    cases ns' with
    | nil =>
      obtain rfl := (cons_prefix_cons.mp h).1
      exact absurd mem_cons_self hns
    | cons y ns' =>
      obtain ⟨rfl, hrest⟩ := cons_prefix_cons.mp h
      obtain ⟨rfl, hab⟩ := ih (not_mem_of_not_mem_cons hns) (not_mem_of_not_mem_cons hns') hrest
      exact ⟨rfl, hab⟩

/-- Of two keys with a common entry prefix one is the other's start, followed by NUL, unless they
    are equal. -/
theorem key_of_isPrefix {a b c : Bytes} (h : a ++ [0] <+: b ++ 0 :: c) :
    a = b ∨ a ++ [0] <+: b ∨ b ++ [0] <+: a := by
  induction a generalizing b with
  | nil =>
    cases b with
    | nil => exact .inl rfl
    | cons y b =>
      obtain ⟨rfl, -⟩ := cons_prefix_cons.mp h
      exact .inr (.inl (cons_prefix_cons.mpr ⟨rfl, nil_prefix⟩))
  | cons x a ih =>
    cases b with
    | nil =>
      obtain ⟨rfl, -⟩ := cons_prefix_cons.mp h
      exact .inr (.inr (cons_prefix_cons.mpr ⟨rfl, nil_prefix⟩))
    | cons y b =>
      obtain ⟨rfl, hrest⟩ := cons_prefix_cons.mp h
      rcases ih hrest with rfl | hab | hba
      · exact .inl rfl
      · exact .inr (.inl (cons_prefix_cons.mpr ⟨rfl, hab⟩))
      · exact .inr (.inr (cons_prefix_cons.mpr ⟨rfl, hba⟩))

/-- Lists in namespaces without NUL such that no key, followed by NUL, is the start of another key
    of its namespace. -/
structure Apart (U : Set ListHandle) : Prop where
  ns : ∀ h ∈ U, 0 ∉ h.ns
  key : ∀ h ∈ U, ∀ h' ∈ U, h.ns = h'.ns → ¬ h.key ++ [0] <+: h'.key

variable {U : Set ListHandle} {h h' : ListHandle} {e : Bytes × Bytes}

/-- Then the entries with a list's prefix are its own. -/
theorem Apart.eq_of_isPrefix (hU : Apart U) (hh : h ∈ U)
    (hh' : h' ∈ U) {seq : ℕ} (hpre : h.stem ++ [0] <+: h'.entryKey seq) : h = h' := by
  rw [h'.entryKey_eq] at hpre
  simp only [stem, cons_append, append_assoc, cons_prefix_cons, true_and] at hpre
  obtain ⟨hns, hkey⟩ := ns_of_isPrefix (hU.ns h hh) (hU.ns h' hh') hpre
  rcases key_of_isPrefix hkey with heq | hpre | hpre
  · cases h
    cases h'
    exact congrArg₂ _ hns heq
  · exact absurd hpre (hU.key h hh h' hh' hns)
  · exact absurd hpre (hU.key h' hh' h hh hns.symm)

/-! ## Operations of the Pebble backend -/

namespace PebbleBackend

variable {U : Set ListHandle} {p : PebbleBackend} {h h' : ListHandle}

/-- Whether an entry starts with a list's prefix. -/
def starts (h : ListHandle) (e : Bytes × Bytes) : Bool := (h.stem ++ [0]).isPrefixOf e.1

theorem starts_iff : starts h e = true ↔ h.stem ++ [0] <+: e.1 :=
  isPrefixOf_iff_prefix

/-- The range that a list is read from. -/
theorem inRange_eq_starts (h : ListHandle) (e : Bytes × Bytes) :
    SortedMap.inRange (listPrefixBytes h.ns h.key)
      (prefixUpperBound (listPrefixBytes h.ns h.key)) e.1 = starts h e := by
  rw [Bool.eq_iff_iff, starts_iff, h.listPrefixBytes_eq, inRange_prefix]

theorem getAll_eq (p : PebbleBackend) (h : ListHandle) :
    p.getAll h = (p.db.entries.filter (starts h)).map Prod.snd := by
  simp only [getAll, SortedMap.range, inRange_eq_starts]

/-- Every entry belongs to one of the lists in use. -/
def Stored (U : Set ListHandle) (p : PebbleBackend) : Prop :=
  ∀ e ∈ p.db.entries, ∃ h ∈ U, ∃ seq, seq < 2 ^ 64 ∧ e.1 = h.entryKey seq

/-- The next sequence number of a list is beyond those of its entries. -/
def Beyond (p : PebbleBackend) (h : ListHandle) : Prop :=
  ∀ e ∈ p.db.entries, ∀ seq < 2 ^ 64, e.1 = h.entryKey seq → seq < p.seqs h

theorem starts_of_ne (hU : Apart U) (hh : h ∈ U) (hh' : h' ∈ U) (hne : h' ≠ h) (seq : ℕ)
    (v : Bytes) : starts h' (h.entryKey seq, v) = false := by
  rw [Bool.eq_false_iff, Ne, starts_iff]
  exact fun hpre => hne (hU.eq_of_isPrefix hh' hh hpre)

theorem append_entries (p : PebbleBackend) (h : ListHandle) (v : Bytes) :
    (p.append h v).db.entries = SortedMap.insertSorted (h.entryKey (p.seqs h)) v p.db.entries := rfl

theorem append_seqs_self (p : PebbleBackend) (h : ListHandle) (v : Bytes) :
    (p.append h v).seqs h = (p.seqs h + 1) % 2 ^ 64 := update_self ..

/-- A value is appended if its entry comes behind those of its list. -/
theorem getAll_append_of_last
    (hlast : ∀ e ∈ p.db.entries, starts h e = true → e.1 < h.entryKey (p.seqs h)) (v : Bytes) :
    (p.append h v).getAll h = p.getAll h ++ [v] := by
  have hk : ∀ v, starts h (h.entryKey (p.seqs h), v) = true := fun v =>
    starts_iff.mpr (h.prefix_entryKey _)
  rw [getAll_eq, getAll_eq, append_entries,
    SortedMap.filter_insertSorted_of_last hk v p.db.sorted hlast, map_append]
  rfl

/-- Lists whose range the entry is not in do not change. -/
theorem getAll_append_of_not (hnot : ∀ v, starts h' (h.entryKey (p.seqs h), v) = false)
    (v : Bytes) : (p.append h v).getAll h' = p.getAll h' := by
  rw [getAll_eq, getAll_eq, append_entries, SortedMap.filter_insertSorted_of_not hnot]

/-- Appending to a list whose numbers are in order. -/
theorem getAll_append (hU : Apart U) (hh : h ∈ U) (hp : Stored U p) (hbeyond : p.Beyond h)
    (hseq : p.seqs h < 2 ^ 64) (v : Bytes) : (p.append h v).getAll h = p.getAll h ++ [v] := by
  apply getAll_append_of_last
  intro e he hstarts
  obtain ⟨h', hh', seq, hlt, heq⟩ := hp e he
  rw [starts_iff, heq] at hstarts
  obtain rfl := hU.eq_of_isPrefix hh hh' hstarts
  rw [heq]
  exact h.entryKey_lt (hbeyond e he seq hlt heq) hseq

/-- Appending to another list. -/
theorem getAll_append_of_ne (hU : Apart U) (hh : h ∈ U) (hh' : h' ∈ U) (hne : h' ≠ h) (v : Bytes) : (p.append h v).getAll h' = p.getAll h' :=
  getAll_append_of_not (starts_of_ne hU hh hh' hne (p.seqs h)) v

theorem clear_entries (p : PebbleBackend) (h : ListHandle) :
    (p.clear h).db.entries = p.db.entries.filter fun e => !starts h e := by
  simp only [clear, SortedMap.deleteRange, inRange_eq_starts]

theorem getAll_clear (p : PebbleBackend) (h : ListHandle) : (p.clear h).getAll h = [] := by
  rw [getAll_eq, clear_entries, filter_filter]
  simp

theorem getAll_clear_of_ne (hU : Apart U) (hh : h ∈ U) (hh' : h' ∈ U) (hne : h' ≠ h)
    (hp : Stored U p) : (p.clear h).getAll h' = p.getAll h' := by
  rw [getAll_eq, getAll_eq, clear_entries, filter_filter]
  congr 1
  apply filter_congr
  intro e he
  cases hstarts : starts h' e with
  | false => rw [Bool.false_and]
  | true =>
    obtain ⟨h'', hh'', seq, -, heq⟩ := hp e he
    rw [starts_iff, heq] at hstarts
    obtain rfl := hU.eq_of_isPrefix hh' hh'' hstarts
    have hnot := starts_of_ne hU hh' hh hne.symm seq e.2
    rw [← heq] at hnot
    rw [hnot]
    rfl

theorem mem_append {v : Bytes} (he : e ∈ (p.append h v).db.entries) :
    e = (h.entryKey (p.seqs h), v) ∨ e ∈ p.db.entries :=
  SortedMap.mem_insertSorted he

theorem stored_append (hh : h ∈ U) (hp : Stored U p) (hseq : p.seqs h < 2 ^ 64) (v : Bytes) :
    Stored U (p.append h v) := by
  intro e he
  rcases mem_append he with rfl | he
  · exact ⟨h, hh, p.seqs h, hseq, rfl⟩
  · exact hp e he

theorem stored_clear (hp : Stored U p) (h : ListHandle) : Stored U (p.clear h) := by
  intro e he
  rw [clear_entries] at he
  exact hp e (mem_of_mem_filter he)

/-- Appending keeps the numbers of all lists in order. -/
theorem beyond_append (hU : Apart U) (hh : h ∈ U) (hh' : h' ∈ U) (hbeyond : p.Beyond h')
    (hseq : h' = h → p.seqs h + 1 < 2 ^ 64) (v : Bytes) : (p.append h v).Beyond h' := by
  intro e he seq hlt heq
  by_cases hne : h' = h
  · subst hne
    have hnext : (p.append h' v).seqs h' = p.seqs h' + 1 := by
      rw [append_seqs_self, mod_eq_of_lt (hseq rfl)]
    rw [hnext]
    rcases mem_append he with rfl | he
    · -- the new entry has the number the list was at
      by_contra hge
      exact Std.lt_irrefl (heq ▸ h'.entryKey_lt (show p.seqs h' < seq by omega) hlt)
    · have := hbeyond e he seq hlt heq
      omega
  · have hsame : (p.append h v).seqs h' = p.seqs h' := update_of_ne hne _ _
    rw [hsame]
    rcases mem_append he with rfl | he
    · have hpre : h'.stem ++ [0] <+: h.entryKey (p.seqs h) := by
        show _ <+: (h.entryKey (p.seqs h), v).1
        rw [heq]
        exact h'.prefix_entryKey seq
      exact absurd (hU.eq_of_isPrefix hh' hh hpre) hne
    · exact hbeyond e he seq hlt heq

theorem beyond_clear (hbeyond : p.Beyond h') (h : ListHandle) : (p.clear h).Beyond h' := by
  intro e he seq hlt heq
  rw [clear_entries] at he
  exact hbeyond e (mem_of_mem_filter he) seq hlt heq

/-- What `Keys` makes of an entry of a namespace. -/
theorem strip_entryKey (h : ListHandle) (seq : ℕ) :
    ¬ (h.entryKey seq).length < (listNamespacePrefix h.ns).length + 9 ∧
      ((h.entryKey seq).take ((h.entryKey seq).length - 9)).drop
        (listNamespacePrefix h.ns).length = h.key := by
  have hsplit : h.entryKey seq = (listNamespacePrefix h.ns ++ h.key) ++ 0 :: bigEndian 8 seq := by
    rw [h.entryKey_eq]
    simp [stem, listNamespacePrefix]
  have hlength : (h.entryKey seq).length = (listNamespacePrefix h.ns ++ h.key).length + 9 := by
    rw [hsplit, length_append, length_cons, bigEndian_length]
  constructor
  · rw [hlength, length_append]
    omega
  · rw [hlength, Nat.add_sub_cancel, hsplit, take_left, drop_left]

theorem mem_range_namespace (p : PebbleBackend) (ns : Bytes) :
    e ∈ p.db.range (listNamespacePrefix ns) (prefixUpperBound (listNamespacePrefix ns)) ↔
      e ∈ p.db.entries ∧ listNamespacePrefix ns <+: e.1 := by
  rw [SortedMap.range, mem_filter, listNamespacePrefix, inRange_prefix]

theorem ns_of_namespacePrefix {ns : Bytes} (hns : 0 ∉ ns) (hh : 0 ∉ h.ns) {seq : ℕ}
    (hpre : listNamespacePrefix ns <+: h.entryKey seq) : ns = h.ns := by
  rw [h.entryKey_eq] at hpre
  simp only [listNamespacePrefix, stem, cons_append, append_assoc,
    cons_prefix_cons, true_and] at hpre
  exact (ns_of_isPrefix hns hh hpre).1

theorem namespacePrefix_entryKey (h : ListHandle) (seq : ℕ) :
    listNamespacePrefix h.ns <+: h.entryKey seq := by
  refine ⟨h.key ++ 0 :: bigEndian 8 seq, ?_⟩
  rw [h.entryKey_eq]
  simp [stem, listNamespacePrefix]

/-- `Keys` returns the keys whose lists are not empty. -/
theorem mem_keys (hU : Apart U) (hp : Stored U p) {ns k : Bytes} (hns : 0 ∉ ns) :
    k ∈ p.keys ns ↔ ⟨ns, k⟩ ∈ U ∧ p.getAll ⟨ns, k⟩ ≠ [] := by
  have hmem : k ∈ p.keys ns ↔ ∃ e ∈ p.db.entries, listNamespacePrefix ns <+: e.1 ∧
      ¬ e.1.length < (listNamespacePrefix ns).length + 9 ∧
      (e.1.take (e.1.length - 9)).drop (listNamespacePrefix ns).length = k := by
    simp [keys, mem_range_namespace, and_assoc]
  rw [hmem]
  constructor
  · rintro ⟨e, he, hpre, -, hk⟩
    obtain ⟨h, hh, seq, -, heq⟩ := hp e he
    rw [heq] at hpre hk
    obtain rfl := ns_of_namespacePrefix hns (hU.ns h hh) hpre
    obtain rfl : h.key = k := (strip_entryKey h seq).2.symm.trans hk
    refine ⟨hh, ?_⟩
    have hstarts : e ∈ p.db.entries.filter (starts h) :=
      mem_filter.mpr ⟨he, starts_iff.mpr (by rw [heq]; exact h.prefix_entryKey seq)⟩
    show p.getAll h ≠ []
    rw [getAll_eq]
    exact ne_nil_of_mem (mem_map_of_mem hstarts)
  · rintro ⟨hh, hne⟩
    rw [getAll_eq] at hne
    obtain ⟨v, hv⟩ := exists_mem_of_ne_nil _ hne
    obtain ⟨e, he, -⟩ := mem_map.mp hv
    obtain ⟨he, hstarts⟩ := mem_filter.mp he
    obtain ⟨h', hh', seq, -, heq⟩ := hp e he
    rw [starts_iff, heq] at hstarts
    obtain rfl := hU.eq_of_isPrefix hh hh' hstarts
    refine ⟨e, he, ?_, ?_⟩
    · rw [heq]
      exact namespacePrefix_entryKey ⟨ns, k⟩ seq
    · rw [heq]
      exact strip_entryKey ⟨ns, k⟩ seq

end PebbleBackend

/-! ## Operations of the memory backend -/

namespace MemoryLists

variable {m : MemoryLists} {h h' : ListHandle}

theorem lookup_update (m : MemoryLists) (h : ListHandle) {lists : AList fun _ : Bytes => List Bytes}
    (hother : ∀ k, k ≠ h.key → lists.lookup k = (m h.ns).lookup k) (h' : ListHandle) :
    ((update m h.ns lists) h'.ns).lookup h'.key =
      if h' = h then lists.lookup h.key else (m h'.ns).lookup h'.key := by
  by_cases hns : h'.ns = h.ns
  · rw [hns, update_self]
    by_cases hkey : h'.key = h.key
    · have heq : h' = h := by cases h; cases h'; exact congrArg₂ _ hns hkey
      rw [if_pos heq, hkey]
    · rw [hother _ hkey, if_neg (hkey <| congrArg key ·)]
  · rw [update_of_ne hns, if_neg (hns <| congrArg ns ·)]

theorem lookup_append (m : MemoryLists) (h : ListHandle) (v : Bytes) (h' : ListHandle) :
    ((memoryLists.append m h v) h'.ns).lookup h'.key =
      if h' = h then some (m.getAll h ++ [v]) else (m h'.ns).lookup h'.key :=
  (m.lookup_update h (fun _ hk => AList.lookup_insert_ne hk) h').trans (by rw [AList.lookup_insert])

theorem lookup_clear (m : MemoryLists) (h h' : ListHandle) :
    ((memoryLists.clear m h) h'.ns).lookup h'.key =
      if h' = h then none else (m h'.ns).lookup h'.key :=
  (m.lookup_update h (fun _ hk => AList.lookup_erase_ne hk) h').trans (by rw [AList.lookup_erase])

end MemoryLists

/-! ## Refinement -/

/-- Whether an operation adds a value. -/
def ListOp.isAppend : ListOp → Bool
  | .append _ => true
  | _ => false

/-- How often a list is appended to. -/
def appends (h : ListHandle) (ops : List (ListHandle × ListOp)) : ℕ :=
  ops.countP fun x => decide (x.1 = h) && x.2.isAppend

/-- The same result: key lists are compared as sets. -/
def ListResult.Same : ListResult → ListResult → Prop
  | .done, .done => True
  | .values vs, .values vs' => vs = vs'
  | .keys ks, .keys ks' => ∀ k, k ∈ ks ↔ k ∈ ks'
  | _, _ => False

/-- The Pebble backend holds the lists of the memory backend, and has given out `given` sequence
    numbers. -/
structure Refines (U : Set ListHandle) (given : ListHandle → ℕ) (m : MemoryLists)
    (p : PebbleBackend) : Prop where
  stored : p.Stored U
  seqs : ∀ h, p.seqs h = given h % 2 ^ 64
  beyond : ∀ h ∈ U, given h < 2 ^ 64 → p.Beyond h
  lists : ∀ h ∈ U, p.getAll h = m.getAll h
  held : ∀ h vs, (m h.ns).lookup h.key = some vs → h ∈ U ∧ vs ≠ []

namespace Refines

variable {U : Set ListHandle} {given : ListHandle → ℕ} {m : MemoryLists} {p : PebbleBackend}

theorem fresh (U : Set ListHandle) : Refines U (fun _ => 0) (fun _ => ∅) (.openPebble .empty) where
  stored e he := absurd he (by simp [openPebble, SortedMap.empty])
  seqs _ := rfl
  beyond h _ _ e he := absurd he (by simp [openPebble, SortedMap.empty])
  lists h _ := by
    rw [getAll_eq]
    simp [openPebble, SortedMap.empty, MemoryLists.getAll]
  held h vs hvs := absurd hvs (by simp)

theorem append (h : Refines U given m p) (hU : Apart U) {x : ListHandle} (hx : x ∈ U)
    (hgiven : given x < 2 ^ 64) (v : Bytes) :
    Refines U (update given x (given x + 1)) (memoryLists.append m x v) (p.append x v) where
  stored := stored_append hx h.stored (by rw [h.seqs]; omega) v
  seqs y := by
    by_cases hy : y = x
    · subst hy
      rw [append_seqs_self, h.seqs, update_self, mod_add_mod]
    · have hsame : (p.append x v).seqs y = p.seqs y := update_of_ne hy _ _
      rw [hsame, h.seqs, update_of_ne hy]
  beyond y hy hlt := by
    by_cases hyx : y = x
    · subst hyx
      rw [update_self] at hlt
      exact beyond_append hU hx hy (h.beyond y hy hgiven) (fun _ => by rw [h.seqs]; omega) v
    · rw [update_of_ne hyx] at hlt
      exact beyond_append hU hx hy (h.beyond y hy hlt) (absurd · hyx) v
  lists y hy := by
    rw [MemoryLists.getAll, MemoryLists.lookup_append]
    by_cases hyx : y = x
    · subst hyx
      rw [if_pos rfl, getAll_append hU hy h.stored (h.beyond y hy hgiven)
        (by rw [h.seqs]; omega), h.lists y hy]
      rfl
    · rw [if_neg hyx, getAll_append_of_ne hU hx hy hyx, h.lists y hy]
      rfl
  held y vs hvs := by
    rw [MemoryLists.lookup_append] at hvs
    split at hvs
    case isTrue hyx =>
      subst hyx
      cases hvs
      exact ⟨hx, by simp⟩
    case isFalse => exact h.held y vs hvs

theorem clear (h : Refines U given m p) (hU : Apart U) {x : ListHandle} (hx : x ∈ U) :
    Refines U given (memoryLists.clear m x) (p.clear x) where
  stored := stored_clear h.stored x
  seqs := h.seqs
  beyond y hy hlt := beyond_clear (h.beyond y hy hlt) x
  lists y hy := by
    rw [MemoryLists.getAll, MemoryLists.lookup_clear]
    by_cases hyx : y = x
    · subst hyx
      rw [if_pos rfl, getAll_clear]
      rfl
    · rw [if_neg hyx, getAll_clear_of_ne hU hx hy hyx h.stored, h.lists y hy]
      rfl
  held y vs hvs := by
    rw [MemoryLists.lookup_clear] at hvs
    split at hvs
    case isTrue => simp at hvs
    case isFalse => exact h.held y vs hvs

/-- Both backends report the same keys. -/
theorem keys (h : Refines U given m p) (hU : Apart U) {ns : Bytes} (hns : 0 ∉ ns) (k : Bytes) :
    k ∈ (m ns).keys ↔ k ∈ p.keys ns := by
  rw [mem_keys hU h.stored hns, ← AList.mem_keys, ← AList.lookup_isSome]
  constructor
  · intro hsome
    obtain ⟨vs, hvs⟩ := Option.isSome_iff_exists.mp hsome
    obtain ⟨hmem, hne⟩ := h.held ⟨ns, k⟩ vs hvs
    refine ⟨hmem, ?_⟩
    rw [h.lists _ hmem, MemoryLists.getAll, hvs]
    exact hne
  · rintro ⟨hmem, hne⟩
    rw [h.lists _ hmem, MemoryLists.getAll] at hne
    cases hlookup : (m ns).lookup k with
    | none => exact absurd (by rw [hlookup]; rfl) hne
    | some vs => rfl

end Refines

/-- Appending one value adds one to the count of its list. -/
theorem given_append (given : ListHandle → ℕ) (x : ListHandle) (v : Bytes)
    (ops : List (ListHandle × ListOp)) (h : ListHandle) :
    update given x (given x + 1) h + appends h ops =
      given h + appends h ((x, .append v) :: ops) := by
  rw [appends, appends, countP_cons]
  by_cases hx : h = x
  · subst hx
    rw [update_self]
    simp only [ListOp.isAppend, decide_true, Bool.and_self, if_true]
    omega
  · rw [update_of_ne hx]
    simp [Ne.symm hx]

/-- The other operations add nothing. -/
theorem appends_cons_of_not {op : ListOp} (hop : op.isAppend = false) (h x : ListHandle)
    (ops : List (ListHandle × ListOp)) : appends h ((x, op) :: ops) = appends h ops := by
  rw [appends, countP_cons_of_neg (by rw [hop, Bool.and_false]; exact Bool.false_ne_true)]
  rfl

variable {ops : List (ListHandle × ListOp)} {p : PebbleBackend}

/-- What both backends hold after a history on lists that are apart. -/
theorem Refines.run (hU : Apart U) {given : ListHandle → ℕ}
    {m : MemoryLists} (h : Refines U given m p) (hops : ∀ x ∈ ops, x.1 ∈ U)
    (hgiven : ∀ y, given y + appends y ops ≤ 2 ^ 64) :
    Refines U (fun y => given y + appends y ops) (memoryLists.run m ops) (pebbleLists.run p ops)
      ∧ Forall₂ ListResult.Same (memoryLists.results m ops) (pebbleLists.results p ops) := by
  induction ops generalizing given m p with
  | nil => exact ⟨h, Forall₂.nil⟩
  | cons x ops ih =>
    obtain ⟨y, op⟩ := x
    have hy : y ∈ U := hops (y, op) mem_cons_self
    have hrest : ∀ x ∈ ops, x.1 ∈ U := fun x hx => hops x (mem_cons_of_mem _ hx)
    cases op with
    | append v =>
      have hlt : given y < 2 ^ 64 := by
        have hcount := given_append given y v ops y
        have hle := hgiven y
        rw [update_self] at hcount
        omega
      have hsame := funext (given_append given y v ops)
      have hstep := ih (h.append hU hy hlt v) hrest fun z => by
        rw [given_append given y v]
        exact hgiven z
      rw [hsame] at hstep
      exact ⟨hstep.1, .cons trivial hstep.2⟩
    | getAll =>
      simp only [appends_cons_of_not (show ListOp.getAll.isAppend = false from rfl)] at hgiven ⊢
      obtain ⟨hrun, hres⟩ := ih h hrest hgiven
      exact ⟨hrun, .cons (h.lists y hy).symm hres⟩
    | clear =>
      simp only [appends_cons_of_not (show ListOp.clear.isAppend = false from rfl)] at hgiven ⊢
      obtain ⟨hrun, hres⟩ := ih (h.clear hU hy) hrest hgiven
      exact ⟨hrun, .cons trivial hres⟩
    | keys =>
      simp only [appends_cons_of_not (show ListOp.keys.isAppend = false from rfl)] at hgiven ⊢
      obtain ⟨hrun, hres⟩ := ih h hrest hgiven
      exact ⟨hrun, .cons (h.keys hU (hU.ns y hy)) hres⟩

/-! ## Where the backends differ -/

theorem scopedOps_ops (h : ListHandle) (ops : List ListOp) :
    scopedOps [h] (ops.map (.op 0)) = ops.map (h, ·) := by
  induction ops with
  | nil => rfl
  | cons op ops ih =>
    rw [map_cons, map_cons, ← ih]
    rfl

/-- Results that are all the same end in the same one. -/
theorem same_last {m : MemoryLists} {x : ListHandle × ListOp} (h : Forall₂ ListResult.Same
      (memoryLists.results m (ops ++ [x])) (pebbleLists.results p (ops ++ [x]))) :
    ListResult.Same (memoryLists.result (memoryLists.run m ops) x)
      (pebbleLists.result (pebbleLists.run p ops) x) := by
  induction ops generalizing m p with
  | nil => exact (forall₂_cons.mp h).1
  | cons y ops ih => exact ih (forall₂_cons.mp h).2

/-- Appending to one list over and over: the sequence numbers are those of the values so far, and no
    other entries are added. -/
theorem run_replicate (h : ListHandle) (v : Bytes) (n : ℕ) (p : PebbleBackend) :
    (pebbleLists.run p (replicate n (h, .append v))).seqs h % 2 ^ 64 = (p.seqs h + n) % 2 ^ 64 ∧
      ∀ e ∈ (pebbleLists.run p (replicate n (h, .append v))).db.entries,
        e ∈ p.db.entries ∨ ∃ seq < 2 ^ 64, e.1 = h.entryKey seq := by
  induction n generalizing p with
  | zero => exact ⟨rfl, fun e he => .inl he⟩
  | succ n ih =>
    obtain ⟨hseqs, hmem⟩ := ih (p.append h v)
    constructor
    · rw [append_seqs_self, mod_add_mod] at hseqs
      rw [show p.seqs h + (n + 1) = p.seqs h + 1 + n by omega]
      exact hseqs
    · intro e he
      rcases hmem e he with he | hown
      · rcases mem_append he with rfl | he
        · refine .inr ⟨p.seqs h % 2 ^ 64, Nat.mod_lt _ (Nat.two_pow_pos 64), ?_⟩
          exact (h.entryKey_mod (p.seqs h)).symm
        · exact .inl he
      · exact .inr hown

/-- A list gets at most `2 ^ 64` entries more. -/
theorem getAll_replicate_length_le (h : ListHandle) (v : Bytes) (n : ℕ) (p : PebbleBackend) :
    ((pebbleLists.run p (replicate n (h, .append v))).getAll h).length ≤
      (p.getAll h).length + 2 ^ 64 := by
  obtain ⟨-, hmem⟩ := run_replicate h v n p
  rw [getAll_eq, getAll_eq, length_map, length_map]
  generalize pebbleLists.run p (replicate n (h, .append v)) = r at hmem
  have hnodup : ((r.db.entries.filter (starts h)).map Prod.fst).Nodup :=
    pairwise_map.mpr ((r.db.sorted.filter _).imp fun hlt => Std.ne_of_lt hlt)
  have hsub : (r.db.entries.filter (starts h)).map Prod.fst ⊆
      (p.db.entries.filter (starts h)).map Prod.fst ++ (range (2 ^ 64)).map h.entryKey := by
    intro k hk
    obtain ⟨e, he, rfl⟩ := mem_map.mp hk
    obtain ⟨he, hstarts⟩ := mem_filter.mp he
    rcases hmem e he with he | ⟨seq, hlt, heq⟩
    · exact mem_append_left _ (mem_map_of_mem (mem_filter.mpr ⟨he, hstarts⟩))
    · exact mem_append_right _ (mem_map.mpr ⟨seq, mem_range.mpr hlt, heq.symm⟩)
  have hle := hnodup.length_le_of_subset hsub
  rw [length_append, length_map, length_map, length_map, length_range] at hle
  exact hle

theorem memory_replicate (h : ListHandle) (v : Bytes) (n : ℕ) (m : MemoryLists) :
    ((memoryLists.run m (replicate n (h, .append v))).getAll h).length =
      (m.getAll h).length + n := by
  induction n generalizing m with
  | zero => rfl
  | succ n ih =>
    have hone : (MemoryLists.getAll (memoryLists.append m h v) h).length =
        (m.getAll h).length + 1 := by
      rw [MemoryLists.getAll, MemoryLists.lookup_append, if_pos rfl, Option.getD_some,
        length_append, length_singleton]
    show ((memoryLists.run (memoryLists.append m h v) _).getAll h).length = _
    rw [ih, hone]
    omega

theorem appends_concat_getAll_le (h x : ListHandle) (ops : List (ListHandle × ListOp)) :
    appends h (ops ++ [(x, .getAll)]) ≤ ops.length := by
  have hlast : appends h [(x, .getAll)] = 0 := appends_cons_of_not rfl h x []
  rw [appends, countP_append]
  show _ + appends h [(x, .getAll)] ≤ _
  rw [hlast]
  exact countP_le_length

/-- An entry of a key that continues another key behind a NUL is read as one of that key's entries
    too. -/
theorem getAll_of_isPrefix (hns : h.ns = h'.ns) (hpre : h.key ++ [0] <+: h'.key) (v : Bytes) :
    (pebbleLists.run (.openPebble .empty) [(h', .append v)]).getAll h = [v] := by
  show ((openPebble .empty).append h' v).getAll h = [v]
  have hstarts : starts h (h'.entryKey 0, v) = true := by
    rw [starts_iff, h'.entryKey_eq]
    simp only [stem, hns, cons_append, append_assoc, cons_prefix_cons, true_and]
    rw [prefix_append_right_inj, cons_prefix_cons]
    exact ⟨rfl, hpre.trans (prefix_append ..)⟩
  rw [getAll_eq, append_entries]
  show (filter (starts h) [(h'.entryKey 0, v)]).map Prod.snd = [v]
  rw [filter_cons_of_pos hstarts]
  rfl

/-- Without appends there is nothing to differ in. -/
theorem results_of_no_append (hops : ∀ x ∈ ops, x.2.isAppend = false) (hp : p.db.entries = [])
    {m : MemoryLists} (hm : ∀ ns, m ns = ∅) :
    Forall₂ ListResult.Same (memoryLists.results m ops) (pebbleLists.results p ops) := by
  induction ops generalizing p m with
  | nil => exact Forall₂.nil
  | cons x ops ih =>
    obtain ⟨y, op⟩ := x
    have hrest : ∀ x ∈ ops, x.2.isAppend = false := fun x hx =>
      hops x (mem_cons_of_mem _ hx)
    cases op with
    | append v => exact absurd (hops _ mem_cons_self) (by simp [ListOp.isAppend])
    | getAll =>
      apply Forall₂.cons _ (ih hrest hp hm)
      show m.getAll y = p.getAll y
      rw [getAll_eq, hp, MemoryLists.getAll, hm]
      rfl
    | clear =>
      apply Forall₂.cons trivial (ih hrest _ _)
      · show (p.clear y).db.entries = []
        rw [PebbleBackend.clear_entries, hp]
        rfl
      · intro ns
        show update m y.ns ((m y.ns).erase y.key) ns = ∅
        by_cases hns : ns = y.ns
        · subst hns
          rw [update_self, hm]
          rfl
        · rw [update_of_ne hns, hm]
    | keys =>
      apply Forall₂.cons _ (ih hrest hp hm)
      show ∀ k, k ∈ (m y.ns).keys ↔ k ∈ p.keys y.ns
      rw [hm]
      simp [PebbleBackend.keys, SortedMap.range, hp]

/-- The programs that use the lists `U` and append to each at most `N` times. -/
def Uses (U : Set ListHandle) (N : ℕ) (calls : List ListCall) : Prop :=
  (∀ x ∈ scopedOps [] calls, x.1 ∈ U) ∧ ∀ h, appends h (scopedOps [] calls) ≤ N

/-- Both backends, from empty, return the same to a program. -/
def SameResults (calls : List ListCall) : Prop :=
  List.Forall₂ ListResult.Same (memoryLists.results (fun _ => ∅) (scopedOps [] calls))
    (pebbleLists.results (.openPebble .empty) (scopedOps [] calls))

/-- With more appends than sequence numbers Pebble loses a value. -/
theorem exists_not_same_of_many {N : ℕ} (hh : h ∈ U) (hN : 2 ^ 64 < N) : ∃ calls, Uses U N calls ∧ ¬ SameResults calls := by
  obtain ⟨calls, hops⟩ : ∃ calls, scopedOps [] calls =
      replicate N (h, .append []) ++ [(h, .getAll)] := by
    use .listState h.ns :: .setKey 0 h.key ::
      (replicate N (ListOp.append []) ++ [ListOp.getAll]).map (.op 0)
    show scopedOps [h] _ = _
    rw [scopedOps_ops, map_append, map_replicate]
    rfl
  refine ⟨calls, ⟨?_, ?_⟩, fun hsame => ?_⟩
  · intro x hx
    rw [hops] at hx
    rcases mem_append.mp hx with hx | hx
    · rw [eq_of_mem_replicate hx]
      exact hh
    · rw [mem_singleton.mp hx]
      exact hh
  · rw [hops]
    intro y
    have hle := appends_concat_getAll_le y h (replicate N (h, .append []))
    rw [length_replicate] at hle
    exact hle
  · rw [SameResults, hops] at hsame
    have hlen : (MemoryLists.getAll _ h).length = (getAll _ h).length :=
      congrArg length (same_last hsame)
    have hle := getAll_replicate_length_le h [] N (.openPebble .empty)
    have hnil : (openPebble .empty).getAll h = [] :=
      (Refines.fresh {h}).lists h rfl
    rw [hnil, length_nil] at hle
    rw [memory_replicate] at hlen
    omega

/-- A value of a key is read under a key that it continues behind a NUL. -/
theorem exists_not_same_of_isPrefix {N : ℕ} (hh : h ∈ U)
    (hh' : h' ∈ U) (hns : h.ns = h'.ns) (hpre : h.key ++ [0] <+: h'.key) (hN : 0 < N) :
    ∃ calls, Uses U N calls ∧ ¬ SameResults calls := by
  obtain ⟨calls, hops⟩ : ∃ calls, scopedOps [] calls = [(h', .append [])] ++ [(h, .getAll)] := by
    use [.listState h'.ns, .setKey 0 h'.key, .op 0 (.append []), .setKey 0 h.key, .op 0 .getAll]
    show [(h', ListOp.append []), (⟨h'.ns, h.key⟩, .getAll)] = _
    rw [← hns]
    rfl
  refine ⟨calls, ⟨?_, ?_⟩, fun hsame => ?_⟩
  · rw [hops]
    simp [hh, hh']
  · intro y
    rw [hops]
    exact le_trans (appends_concat_getAll_le y h [(h', .append [])]) hN
  · rw [SameResults, hops] at hsame
    have hvalues : MemoryLists.getAll _ h = getAll _ h := same_last hsame
    have hne : h ≠ h' := by
      rintro rfl
      have hlen := hpre.length_le
      rw [length_append, length_singleton] at hlen
      omega
    have hempty : (memoryLists.run (fun _ => ∅) [(h', .append [])]).getAll h = [] := by
      have hlookup := MemoryLists.lookup_append (fun _ => ∅) h' [] h
      rw [if_neg hne] at hlookup
      exact congrArg (Option.getD · []) hlookup
    rw [getAll_of_isPrefix hns hpre, hempty] at hvalues
    simp at hvalues

/-- `ListState` on Pebble and in memory return the same to every program that uses the lists `U`,
    each appended to at most `N` times, exactly if there are enough sequence numbers and no key,
    followed by NUL, is the start of another key in use. -/
theorem pebble_lists_refine_memory_iff (U : Set ListHandle) (hns : ∀ h ∈ U, 0 ∉ h.ns) (N : ℕ) :
    (∀ calls, Uses U N calls → SameResults calls) ↔
      N = 0 ∨ ∀ h ∈ U, N ≤ 2 ^ 64 ∧ ∀ h' ∈ U, h.ns = h'.ns → ¬ h.key ++ [0] <+: h'.key := by
  constructor
  · intro hagree
    by_cases hN : N = 0
    · exact .inl hN
    refine .inr fun h hh => ⟨?_, fun h' hh' heq hpre => ?_⟩
    · by_contra hgt
      obtain ⟨calls, huses, hnot⟩ := exists_not_same_of_many hh (Nat.lt_of_not_le hgt)
      exact hnot (hagree calls huses)
    · obtain ⟨calls, huses, hnot⟩ :=
        exists_not_same_of_isPrefix hh hh' heq hpre (Nat.pos_of_ne_zero hN)
      exact hnot (hagree calls huses)
  · rintro (rfl | hcond) calls ⟨hcalls, happ⟩
    · apply results_of_no_append _ rfl fun _ => rfl
      intro x hx
      have hzero := countP_eq_zero.mp (Nat.le_zero.mp (happ x.1)) x hx
      simpa using hzero
    · have hU : Apart U := ⟨hns, fun h hh => (hcond h hh).2⟩
      apply ((Refines.fresh U).run hU hcalls _).2
      intro y
      rw [Nat.zero_add]
      by_cases hy : y ∈ U
      · exact Nat.le_trans (happ y) (hcond y hy).1
      · have hzero : appends y (scopedOps [] calls) = 0 := by
          rw [appends, countP_eq_zero]
          intro x hx htrue
          rw [Bool.and_eq_true, decide_eq_true_eq] at htrue
          exact hy (htrue.1 ▸ hcalls x hx)
        omega

/-- Two keys of one namespace, the second one with a zero byte at its end. -/
theorem pebble_lists_refine_memory_iff_two :
    let U : Set ListHandle := {⟨[110], [97]⟩, ⟨[110], [98, 0]⟩}
    let calls : List ListCall := [.listState [110], .setKey 0 [98, 0], .op 0 (.append [49]),
      .setKey 0 [97], .op 0 .getAll]
    (∀ h ∈ U, 0 ∉ h.ns) ∧ Uses U (2 ^ 64) calls ∧ SameResults calls := by
  intro U calls
  have hns : ∀ h ∈ U, 0 ∉ h.ns := by rintro h (rfl | rfl) <;> decide
  have huses : Uses U (2 ^ 64) calls := by
    have hops : scopedOps [] calls = [(⟨[110], [98, 0]⟩, .append [49]), (⟨[110], [97]⟩, .getAll)] :=
      rfl
    rw [Uses, hops]
    refine ⟨fun x hx => ?_, fun h => ?_⟩
    · rcases mem_cons.mp hx with rfl | hx
      · exact .inr rfl
      · obtain rfl := mem_singleton.mp hx
        exact .inl rfl
    · refine Nat.le_trans countP_le_length ?_
      decide
  refine ⟨hns, huses, (pebble_lists_refine_memory_iff U hns (2 ^ 64)).mpr (.inr ?_) calls huses⟩
  intro h hh
  refine ⟨Nat.le_refl _, fun h' hh' _ => ?_⟩
  rcases hh with rfl | rfl <;> rcases hh' with rfl | rfl <;> decide

/-- Key `a` gets a value of key `a\0b`. -/
theorem pebble_lists_mix_keys :
    let ops := scopedOps [] [.listState [110], .setKey 0 [97, 0, 98], .op 0 (.append [49]),
      .setKey 0 [97], .op 0 .getAll]
    memoryLists.results (fun _ => ∅) ops = [.done, .values []] ∧
      pebbleLists.results (.openPebble .empty) ops = [.done, .values [[49]]] := by
  decide

end Weibo
