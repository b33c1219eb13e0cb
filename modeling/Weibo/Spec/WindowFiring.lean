import Mathlib.Algebra.BigOperators.Group.Finset.Basic
import Mathlib.Algebra.BigOperators.Group.Finset.Piecewise
import Mathlib.Algebra.Order.Group.Multiset
import Weibo.Model.Window

/-!
# Buffers of the window operator

A window's backend key parses back to its key and bounds.  Appending to a buffer
and firing windows are described by what a lookup finds afterwards, so that the
order in which the backend enumerates its keys plays no role.
-/

namespace Weibo

open List WindowBuffers AList

/-! ## Window keys -/

theorem splitLastSlash_append (a : Bytes) {b : Bytes} (h : slash ∉ b) :
    splitLastSlash (a ++ slash :: b) = some (a, b) := by
  have hb : ∀ c ∈ b.reverse, (c != slash) = true := by
    intro c hc
    rw [bne_iff_ne]
    rintro rfl
    exact h (mem_reverse.mp hc)
  have hrev : (a ++ slash :: b).reverse = b.reverse ++ slash :: a.reverse := by
    rw [reverse_append, reverse_cons, append_assoc, singleton_append]
  have hdrop : (a ++ slash :: b).reverse.dropWhile (· != slash) = slash :: a.reverse := by
    rw [hrev, dropWhile_append_of_pos hb, dropWhile_cons_of_neg (by decide)]
  have htake : (a ++ slash :: b).reverse.takeWhile (· != slash) = b.reverse := by
    rw [hrev, takeWhile_append_of_pos hb, takeWhile_cons_of_neg (by decide), append_nil]
  rw [splitLastSlash, hdrop, htake]
  simp

/-- A backend key is parsed back, also if the record key holds slashes. -/
theorem parseWindowKey_string (tf : TimeFormat) (k : WindowKey) :
    parseWindowKey tf (k.string tf) = k := by
  rw [parseWindowKey, WindowKey.string, splitLastSlash_append _ (tf.slash_notMem_format _)]
  dsimp only
  rw [splitLastSlash_append _ (tf.slash_notMem_format _)]
  dsimp only
  rw [tf.parse_format, tf.parse_format]
  rfl

/-- So no two windows have the same backend key. -/
theorem windowKey_codec (tf : TimeFormat) :
    (∀ k : WindowKey, parseWindowKey tf (k.string tf) = k) ∧
      Function.Injective (WindowKey.string tf) :=
  ⟨parseWindowKey_string tf, Function.LeftInverse.injective (parseWindowKey_string tf)⟩

/-- `Reduce` reads the end of a window from its key. -/
theorem stateKeyWindowEnd_string (tf : TimeFormat) (k : WindowKey) :
    stateKeyWindowEnd tf (k.string tf) = some k.stop := by
  rw [stateKeyWindowEnd, WindowKey.string, splitLastSlash_append _ (tf.slash_notMem_format _)]
  show (splitLastSlash (k.key ++ slash :: tf.format k.start)).bind _ = _
  rw [splitLastSlash_append _ (tf.slash_notMem_format _)]
  show (tf.parse (tf.format k.start)).bind _ = _
  rw [tf.parse_format]
  exact tf.parse_format k.stop

/-- The bounds in a backend key are ASCII. -/
theorem validUtf8_string (tf : TimeFormat) (k : WindowKey) :
    Utf8.validUtf8 (k.string tf) = Utf8.validUtf8 k.key := by
  have hbounds : ∀ t, Utf8.validUtf8 (tf.format t) = true := fun t =>
    Utf8.validUtf8_of_ascii (tf.ascii_format t)
  rw [WindowKey.string, Utf8.validUtf8_append (by decide), Utf8.validUtf8_append (by decide),
    hbounds, hbounds, Bool.and_true, Bool.and_true]

/-! ## Firing -/

variable {ws ws' : WindowBuffers} {k : Bytes}

theorem mem_keys_iff : k ∈ ws.keys ↔ (ws.lookup k).isSome := by
  rw [AList.lookup_isSome, AList.mem_keys]

theorem getAll_eq_of_lookup (h : ws.lookup k = ws'.lookup k) : ws.getAll k = ws'.getAll k := by
  rw [getAll, getAll, h]

/-- A window fires by its own buffer. -/
theorem fireWindow_congr (tf : TimeFormat) (reducer : Option ReduceFn)
    (h : ws.lookup k = ws'.lookup k) :
    fireWindow tf reducer ws k = fireWindow tf reducer ws' k := by
  simp only [fireWindow, getAll_eq_of_lookup h]

/-- What has fired is gone, the rest is as it was. -/
theorem fireAll_lookup (tf : TimeFormat) (reducer : Option ReduceFn) (ks : List Bytes)
    (ws : WindowBuffers) (k : Bytes) :
    (fireAll tf reducer ks ws).1.lookup k = if k ∈ ks then none else ws.lookup k := by
  induction ks generalizing ws with
  | nil => rfl
  | cons k' ks ih =>
    rw [fireAll]
    dsimp only
    rw [ih]
    by_cases hk : k = k'
    · subst hk
      rw [lookup_erase, ite_self, if_pos mem_cons_self]
    · rw [lookup_erase_ne hk]
      simp [hk]

/-- The windows fire one after the other, each with its buffer at the start. -/
theorem fireAll_outs (tf : TimeFormat) (reducer : Option ReduceFn) {ks : List Bytes}
    (hks : ks.Nodup) (ws : WindowBuffers) :
    (fireAll tf reducer ks ws).2 = ks.flatMap (fireWindow tf reducer ws) := by
  induction ks generalizing ws with
  | nil => rfl
  | cons k ks ih =>
    obtain ⟨hk, hks⟩ := nodup_cons.mp hks
    rw [fireAll, flatMap_cons]
    show fireWindow tf reducer ws k ++ (fireAll tf reducer ks (ws.erase k)).2 = _
    rw [ih hks]
    congr 1
    apply flatMap_congr
    intro k' hk'
    apply fireWindow_congr
    rw [lookup_erase_ne]
    rintro rfl
    exact hk hk'

/-- As a multiset, the windows of a set of keys. -/
theorem fireAll_sum (tf : TimeFormat) (reducer : Option ReduceFn) {ks : List Bytes}
    (hks : ks.Nodup) (ws : WindowBuffers) :
    ((fireAll tf reducer ks ws).2 : Multiset Record) =
      ∑ k ∈ ks.toFinset, (fireWindow tf reducer ws k : Multiset Record) := by
  rw [sum_toFinset _ hks, fireAll_outs tf reducer hks]
  induction ks with
  | nil => rfl
  | cons k ks ih =>
    rw [flatMap_cons, map_cons, sum_cons, ← ih (nodup_cons.mp hks).2, Multiset.coe_add]

/-- What is left are the buffers without those that have fired. -/
theorem fireAll_fst (tf : TimeFormat) (reducer : Option ReduceFn) (ks : List Bytes)
    (ws : WindowBuffers) :
    (fireAll tf reducer ks ws).1 = ks.foldl (fun ws k => ws.erase k) ws := by
  induction ks generalizing ws with
  | nil => rfl
  | cons k ks ih => exact ih (ws.erase k)

/-- The backend enumerates each of its keys once. -/
theorem KeyOrder.nodup_keys (order : KeyOrder) (ws : WindowBuffers) : (order.1 ws.keys).Nodup :=
  (order.2 ws.keys).nodup_iff.mpr ws.keys_nodup

theorem KeyOrder.mem_keys (order : KeyOrder) : k ∈ order.1 ws.keys ↔ (ws.lookup k).isSome :=
  (order.2 ws.keys).mem_iff.trans mem_keys_iff

/-! ## Buffering -/

theorem append_lookup (ws : WindowBuffers) (k k' : Bytes) (rs : List Record) :
    (ws.append k rs).lookup k' = if k' = k then some (ws.getAll k ++ rs) else ws.lookup k' := by
  rw [append]
  by_cases hk : k' = k
  · subst hk
    rw [lookup_insert, if_pos rfl]
  · rw [lookup_insert_ne hk, if_neg hk]

theorem append_getAll (ws : WindowBuffers) (k k' : Bytes) (rs : List Record) :
    (ws.append k rs).getAll k' = ws.getAll k' ++ if k' = k then rs else [] := by
  rw [getAll, append_lookup]
  by_cases hk : k' = k
  · rw [if_pos hk, if_pos hk, hk]
    rfl
  · rw [if_neg hk, if_neg hk, append_nil]
    rfl

theorem erase_getAll (ws : WindowBuffers) (k k' : Bytes) :
    getAll (ws.erase k) k' = if k' = k then [] else ws.getAll k' := by
  by_cases hk : k' = k
  · rw [if_pos hk, hk, getAll, lookup_erase]
    rfl
  · rw [if_neg hk]
    exact getAll_eq_of_lookup (lookup_erase_ne hk)

/-- Windows that do not merge: the record is appended to the buffer of each. -/
theorem handleDataRecord_of_not_session (tf : TimeFormat) {assigner : WindowAssigner}
    (hsession : assigner.isSession = false) (order : KeyOrder) (ws : WindowBuffers) (r : Record) :
    handleDataRecord tf assigner order ws r =
      (assigner.assignWindows r.timestamp).foldl (fun ws win =>
        ws.append ((toWindowKey r.key win).string tf) [storedRecord r]) ws := by
  simp [handleDataRecord, assignToWindow, hsession]

/-! ## Restoring -/

theorem appendEach_lookup (ws : WindowBuffers) (k k' : Bytes) (rs : List Record) :
    (rs.foldl (fun ws r => ws.append k [r]) ws).lookup k' =
      if k' = k ∧ rs ≠ [] then some (ws.getAll k ++ rs) else ws.lookup k' := by
  induction rs generalizing ws with
  | nil => simp
  | cons r rs ih =>
    rw [foldl_cons, ih, append_lookup, append_getAll]
    by_cases hk : k' = k
    · by_cases hrs : rs = [] <;> simp [hk, hrs]
    · simp [hk]

/-- What is restored are the buffers that were read and hold a record. -/
theorem restoreWindow_lookup (wm : Int) (ws : WindowBuffers) (k : Bytes) :
    (restoreWindow wm ws).windows.lookup k =
      if getAll (Utf8.jsonMap ws) k = [] then none
      else some (getAll (Utf8.jsonMap ws) k) := by
  set read : WindowBuffers := Utf8.jsonMap ws with hread
  -- the keys are restored one after the other, each once
  have hfold : ∀ (ks : List Bytes) (ws : WindowBuffers), ks.Nodup → (∀ k ∈ ks, ws.lookup k = none) →
      (ks.foldl (fun ws k => (read.getAll k).foldl (fun ws r => ws.append k [r]) ws) ws).lookup k =
        if k ∈ ks ∧ read.getAll k ≠ [] then some (read.getAll k) else ws.lookup k := by
    intro ks
    induction ks with
    | nil => simp
    | cons k₀ ks ih =>
      intro ws hnodup hnone
      obtain ⟨hk₀, hnodup⟩ := nodup_cons.mp hnodup
      obtain ⟨hnone₀, hnone⟩ := forall_mem_cons.mp hnone
      rw [foldl_cons, ih _ hnodup]
      · rw [appendEach_lookup, getAll.eq_1 ws, hnone₀]
        by_cases hk : k = k₀
        · subst hk
          simp [hk₀]
        · simp [hk]
      · intro k' hk'
        have hne : k' ≠ k₀ := ne_of_mem_of_not_mem hk' hk₀
        rw [appendEach_lookup, if_neg fun heq => hne heq.1, hnone k' hk']
  have h := hfold read.keys ∅ read.keys_nodup fun _ _ => rfl
  show AList.lookup k (read.keys.foldl _ _) = _
  rw [h]
  by_cases hk : read.getAll k = []
  · simp [hk]
  · have hmem : k ∈ read.keys := by
      rw [mem_keys_iff, Option.isSome_iff_ne_none]
      intro hnone
      rw [getAll, hnone] at hk
      exact hk rfl
    simp [hk, hmem]

/-- Buffers that a snapshot keeps: none is empty, and the keys are valid UTF-8. -/
def Storable (ws : WindowBuffers) : Prop :=
  ∀ k rs, ws.lookup k = some rs → rs ≠ [] ∧ Utf8.validUtf8 k = true

theorem Storable.restoreWindow (h : Storable ws) (wm : Int) (k : Bytes) :
    (restoreWindow wm ws).windows.lookup k = ws.lookup k := by
  have hsame : (Utf8.jsonMap ws).lookup k = ws.lookup k := by
    refine (Utf8.lookup_jsonMap_iff ws).mpr (fun k' hk' => ?_) k
    obtain ⟨rs, hrs⟩ := Option.isSome_iff_exists.mp (lookup_isSome.mpr hk')
    exact (h k' rs hrs).2
  rw [restoreWindow_lookup, getAll, hsame]
  cases hlookup : ws.lookup k with
  | none => rfl
  | some rs => exact if_neg (h k rs hlookup).1

/-! ## What is in the buffers -/

/-- Records with the window that they are buffered in. -/
def placed (tf : TimeFormat) (k : Bytes) (rs : List Record) : List (WindowKey × Record) :=
  rs.map (Prod.mk (parseWindowKey tf k))

/-- All buffered records. -/
def content (tf : TimeFormat) (ws : WindowBuffers) : Multiset (WindowKey × Record) :=
  ∑ k ∈ ws.keys.toFinset, (placed tf k (ws.getAll k) : Multiset (WindowKey × Record))

section Content

variable (tf : TimeFormat)

include tf

/-- Keys without a buffer add nothing. -/
theorem content_eq_sum {ks : Finset Bytes} (h : ∀ k, (ws.lookup k).isSome → k ∈ ks) :
    content tf ws = ∑ k ∈ ks, (placed tf k (ws.getAll k) : Multiset (WindowKey × Record)) := by
  apply Finset.sum_subset
  · intro k hk
    exact h k (mem_keys_iff.mp (List.mem_toFinset.mp hk))
  · intro k _ hk
    rw [List.mem_toFinset, mem_keys_iff, Option.not_isSome_iff_eq_none] at hk
    rw [getAll, hk]
    rfl

/-- Two sums that differ in one key. -/
theorem content_add {rs : List Record}
    (h : ∀ k', ws'.getAll k' = ws.getAll k' ++ if k' = k then rs else []) :
    content tf ws' = content tf ws + (placed tf k rs : Multiset (WindowKey × Record)) := by
  set ks := insert k (ws.keys.toFinset ∪ ws'.keys.toFinset) with hks
  have hmem : ∀ ws₁ : WindowBuffers, ws₁ = ws ∨ ws₁ = ws' → ∀ k', (ws₁.lookup k').isSome → k' ∈ ks := by
    rintro ws₁ (rfl | rfl) k' hk' <;>
      simp [hks, mem_keys_iff, hk']
  have hterm : ∀ k', (placed tf k' (ws'.getAll k') : Multiset (WindowKey × Record)) =
      (placed tf k' (ws.getAll k') : Multiset (WindowKey × Record)) +
        if k' = k then (placed tf k rs : Multiset (WindowKey × Record)) else 0 := by
    intro k'
    rw [h k', placed, map_append, ← Multiset.coe_add]
    by_cases hk' : k' = k
    · rw [if_pos hk', if_pos hk', hk']
      rfl
    · rw [if_neg hk', if_neg hk']
      rfl
  rw [content_eq_sum tf (hmem ws' (.inr rfl)), content_eq_sum tf (hmem ws (.inl rfl)),
    Finset.sum_congr rfl fun k' _ => hterm k', Finset.sum_add_distrib, Finset.sum_ite_eq' ks k,
    if_pos (Finset.mem_insert_self _ _)]

theorem content_append (ws : WindowBuffers) (k : Bytes) (rs : List Record) :
    content tf (ws.append k rs) =
      content tf ws + (placed tf k rs : Multiset (WindowKey × Record)) :=
  content_add tf fun k' => append_getAll ws k k' rs

theorem content_erase (ws : WindowBuffers) (k : Bytes) : content tf ws = content tf (ws.erase k) +
      (placed tf k (ws.getAll k) : Multiset (WindowKey × Record)) := by
  apply content_add
  intro k'
  rw [erase_getAll]
  by_cases hk : k' = k
  · rw [if_pos hk, if_pos hk, hk]
    rfl
  · rw [if_neg hk, if_neg hk, append_nil]

/-- Several buffers are cleared. -/
theorem content_eraseAll {ks : List Bytes} (hks : ks.Nodup) (ws : WindowBuffers) :
    content tf ws = content tf (ks.foldl (fun ws k => ws.erase k) ws) +
      ((ks.flatMap fun k => placed tf k (ws.getAll k) : List (WindowKey × Record)) :
        Multiset (WindowKey × Record)) := by
  induction ks generalizing ws with
  | nil => exact (add_zero _).symm
  | cons k ks ih =>
    obtain ⟨hk, hks⟩ := nodup_cons.mp hks
    -- the other buffers are as they were
    have hrest : (ks.flatMap fun k' => placed tf k' (getAll (ws.erase k) k')) =
        ks.flatMap fun k' => placed tf k' (ws.getAll k') := by
      apply flatMap_congr
      intro k' hk'
      have hne : k' ≠ k := ne_of_mem_of_not_mem hk' hk
      rw [erase_getAll, if_neg hne]
    rw [content_erase tf ws k, ih hks (ws.erase k), hrest, foldl_cons, flatMap_cons,
      ← Multiset.coe_add, add_assoc]
    congr 1
    exact add_comm _ _

end Content

end Weibo
