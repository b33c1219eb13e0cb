import Mathlib.Data.List.Nodup

/-!
# Sorted maps

A `SortedMap` keeps its entries in the order of their keys and carries the proof of it. `range`
reads, and `deleteRange` drops, the entries between two keys, the first bound included and the
second not.

The lemmas say what an update does to the entries whose keys meet a condition:
that is all a user needs who reads the map by ranges.
-/

variable {K V : Type}

/-- Entries in the order of their keys. -/
structure SortedMap (K V : Type) [LT K] where
  entries : List (K × V)
  sorted : entries.Pairwise fun a b => a.1 < b.1

namespace SortedMap

open List

section Insert

variable [LT K] [DecidableLT K] [DecidableEq K] {l : List (K × V)} {p : K × V → Bool}

/-- Put an entry in its place, replacing one of the same key. -/
def insertSorted (k : K) (v : V) : List (K × V) → List (K × V)
  | [] => [(k, v)]
  | e :: rest =>
    if k < e.1 then (k, v) :: e :: rest
    else if k = e.1 then (k, v) :: rest
    else e :: insertSorted k v rest

theorem mem_insertSorted {k : K} {v : V} {e : K × V} (h : e ∈ insertSorted k v l) : e = (k, v) ∨ e ∈ l := by
  induction l with
  | nil => exact .inl (mem_singleton.mp h)
  | cons a rest ih =>
    rw [insertSorted] at h
    split at h
    · exact mem_cons.mp h
    · split at h
      · rcases mem_cons.mp h with h | h
        · exact .inl h
        · exact .inr (mem_cons_of_mem a h)
      · rcases mem_cons.mp h with rfl | h
        · exact .inr mem_cons_self
        · rcases ih h with h | h
          · exact .inl h
          · exact .inr (mem_cons_of_mem a h)

theorem mem_insertSorted_self (k : K) (v : V) (l : List (K × V)) :
    (k, v) ∈ insertSorted k v l := by
  induction l with
  | nil => exact mem_singleton_self _
  | cons a rest ih =>
    rw [insertSorted]
    split
    · exact mem_cons_self
    · split
      · exact mem_cons_self
      · exact mem_cons_of_mem a ih

/-- Entries that an insertion does not concern are as before. -/
theorem filter_insertSorted_of_not {k : K} (hk : ∀ v, p (k, v) = false) (v : V) (l : List (K × V)) : (insertSorted k v l).filter p = l.filter p := by
  have hneg : ∀ e : K × V, e.1 = k → ¬ p e = true := by
    rintro ⟨k', v'⟩ rfl
    rw [hk v']
    decide
  induction l with
  | nil => rw [insertSorted, filter_cons_of_neg (hneg _ rfl)]
  | cons e rest ih =>
    rw [insertSorted]
    split
    · rw [filter_cons_of_neg (hneg _ rfl)]
    · split
      case isTrue heq =>
        rw [filter_cons_of_neg (hneg _ rfl), filter_cons_of_neg (hneg e heq.symm)]
      case isFalse => rw [filter_cons, filter_cons, ih]

/-- An insertion that does not come behind all entries it concerns: a new value does not stand
    last. -/
theorem map_filter_insertSorted_ne [Std.Trichotomous fun a b : K => a < b] {k : K}
    (hk : ∀ v, p (k, v) = true) {v : V} (hv : v ∉ (l.filter p).map Prod.snd) {e : K × V}
    (he : e ∈ l) (hpe : p e = true) (hnot : ¬ e.1 < k) :
    ((insertSorted k v l).filter p).map Prod.snd ≠ (l.filter p).map Prod.snd ++ [v] := by
  induction l with
  | nil => cases he
  | cons a rest ih =>
    rw [insertSorted]
    split
    case isTrue =>
      -- the new value comes first, before that of `e`
      rw [filter_cons_of_pos (hk v), map_cons]
      have hmem : e.2 ∈ ((a :: rest).filter p).map Prod.snd :=
        List.mem_map_of_mem (mem_filter.mpr ⟨he, hpe⟩)
      intro heq
      cases hold : ((a :: rest).filter p).map Prod.snd with
      | nil => rw [hold] at hmem; cases hmem
      | cons b bs =>
        rw [hold] at hv heq
        exact hv ((cons.inj heq).1 ▸ mem_cons_self)
    case isFalse hge =>
      split
      case isTrue heq =>
        -- an entry is replaced
        have hpa : p a = true := by
          obtain ⟨k', v'⟩ := a
          obtain rfl : k = k' := heq
          exact hk v'
        rw [filter_cons_of_pos (hk v), filter_cons_of_pos hpa]
        intro hlist
        have hlength := congrArg length hlist
        simp only [map_cons, length_append, length_cons, length_nil] at hlength
        omega
      case isFalse hne =>
        have hlt : a.1 < k := by
          rcases Std.lt_trichotomy k a.1 with hlt | heq | hgt
          · exact absurd hlt hge
          · exact absurd heq hne
          · exact hgt
        have hrest : e ∈ rest := by
          rcases mem_cons.mp he with rfl | he
          · exact absurd hlt hnot
          · exact he
        rw [filter_cons] at hv
        rw [filter_cons, filter_cons]
        split
        case isTrue hpa =>
          rw [if_pos hpa, map_cons, mem_cons, not_or] at hv
          rw [map_cons, map_cons, cons_append]
          exact fun heq => ih hv.2 hrest (cons.inj heq).2
        case isFalse hpa =>
          rw [if_neg hpa] at hv
          exact ih hv hrest

variable [Trans (fun a b : K => a < b) (fun a b : K => a < b) fun a b : K => a < b]

/-- An insertion behind all entries it concerns. -/
theorem filter_insertSorted_of_last [Std.Irrefl fun a b : K => a < b] {k : K}
    (hk : ∀ v, p (k, v) = true) (v : V) (hsorted : l.Pairwise fun a b => a.1 < b.1)
    (hlast : ∀ e ∈ l, p e = true → e.1 < k) :
    (insertSorted k v l).filter p = l.filter p ++ [(k, v)] := by
  induction l with
  | nil => rw [insertSorted, filter_cons_of_pos (hk v), filter_nil, nil_append]
  | cons e rest ih =>
    obtain ⟨hfirst, hrest⟩ := pairwise_cons.mp hsorted
    rw [insertSorted]
    split
    case isTrue hlt =>
      -- everything behind is greater than `k`, so none of it is concerned
      have hnone : (e :: rest).filter p = [] := by
        rw [filter_eq_nil_iff]
        intro a ha hp
        have hgt : k < a.1 := by
          rcases mem_cons.mp ha with rfl | ha
          · exact hlt
          · exact Std.lt_trans hlt (hfirst a ha)
        exact Std.lt_irrefl (Std.lt_trans hgt (hlast a ha hp))
      rw [filter_cons_of_pos (hk v), hnone, nil_append]
    case isFalse hnot =>
      split
      case isTrue heq =>
        obtain ⟨k', v'⟩ := e
        obtain rfl : k = k' := heq
        exact absurd (hlast _ mem_cons_self (hk v')) Std.lt_irrefl
      case isFalse =>
        rw [filter_cons, filter_cons, ih hrest fun a ha => hlast a (mem_cons_of_mem e ha)]
        split <;> rfl

theorem sorted_insertSorted [Std.Trichotomous fun a b : K => a < b] (k : K) (v : V)
    (h : l.Pairwise fun a b => a.1 < b.1) :
    (insertSorted k v l).Pairwise fun a b => a.1 < b.1 := by
  induction l with
  | nil => exact pairwise_singleton _ _
  | cons e rest ih =>
    obtain ⟨hfirst, hrest⟩ := pairwise_cons.mp h
    rw [insertSorted]
    split
    case isTrue hlt =>
      refine pairwise_cons.mpr ⟨?_, h⟩
      intro a ha
      rcases mem_cons.mp ha with rfl | ha
      · exact hlt
      · exact Std.lt_trans hlt (hfirst a ha)
    case isFalse hnot =>
      split
      case isTrue heq =>
        refine pairwise_cons.mpr ⟨?_, hrest⟩
        intro a ha
        show k < a.1
        rw [heq]
        exact hfirst a ha
      case isFalse hne =>
        refine pairwise_cons.mpr ⟨?_, ih hrest⟩
        intro a ha
        rcases mem_insertSorted ha with rfl | ha
        · rcases Std.lt_trichotomy k e.1 with hlt | heq | hgt
          · exact absurd hlt hnot
          · exact absurd heq hne
          · exact hgt
        · exact hfirst a ha

end Insert

/-! ## The map -/

section

variable [LT K] [DecidableLT K]

/-- The map without entries. -/
def empty : SortedMap K V := ⟨[], List.Pairwise.nil⟩

/-- Whether a key is in a range. -/
def inRange (lo hi k : K) : Bool := decide (¬ k < lo) && decide (k < hi)

/-- The entries of a range, in order. -/
def range (m : SortedMap K V) (lo hi : K) : List (K × V) :=
  m.entries.filter fun e => inRange lo hi e.1

/-- Drop the entries of a range. -/
def deleteRange (m : SortedMap K V) (lo hi : K) : SortedMap K V :=
  ⟨m.entries.filter fun e => !inRange lo hi e.1, m.sorted.filter _⟩

variable [DecidableEq K]
  [Trans (fun a b : K => a < b) (fun a b : K => a < b) fun a b : K => a < b]
  [Std.Trichotomous fun a b : K => a < b]

/-- Store a value under a key. -/
def set (m : SortedMap K V) (k : K) (v : V) : SortedMap K V :=
  ⟨insertSorted k v m.entries, sorted_insertSorted k v m.sorted⟩

end

/-! ## Lookup -/

section Lookup

variable [LT K] [DecidableEq K]

/-- The value of a key. -/
def get (m : SortedMap K V) (k : K) : Option V :=
  (m.entries.find? fun e => decide (e.1 = k)).map Prod.snd

/-- Drop the entry of a key. -/
def delete (m : SortedMap K V) (k : K) : SortedMap K V :=
  ⟨m.entries.filter fun e => decide (e.1 ≠ k), m.sorted.filter _⟩

omit [DecidableEq K] in
/-- No key has two entries. -/
theorem keys_nodup [Std.Irrefl fun a b : K => a < b] (m : SortedMap K V) :
    (m.entries.map Prod.fst).Nodup := by
  rw [List.Nodup, pairwise_map]
  refine m.sorted.imp fun {a b} hlt heq => ?_
  rw [heq] at hlt
  exact Std.lt_irrefl hlt

theorem mem_get [Std.Irrefl fun a b : K => a < b] (m : SortedMap K V) (k : K) (v : V) :
    v ∈ m.get k ↔ (k, v) ∈ m.entries := by
  rw [get, Option.mem_def, Option.map_eq_some_iff]
  constructor
  · rintro ⟨e, hfind, rfl⟩
    have hkey : e.1 = k := by simpa using find?_some hfind
    rw [← hkey]
    exact mem_of_find?_eq_some hfind
  · intro hmem
    cases hfind : m.entries.find? fun e => decide (e.1 = k) with
    | none =>
      have hnone := find?_eq_none.mp hfind (k, v) hmem
      exact absurd (decide_eq_true (p := (k, v).1 = k) rfl) hnone
    | some e =>
      have hkey : e.1 = k := by simpa using find?_some hfind
      have heq := inj_on_of_nodup_map m.keys_nodup (mem_of_find?_eq_some hfind) hmem hkey
      exact ⟨e, rfl, by rw [heq]⟩

theorem get_delete (m : SortedMap K V) (k k' : K) :
    (m.delete k).get k' = if k' = k then none else m.get k' := by
  rw [get, delete, find?_filter]
  split
  case isTrue hk =>
    rw [Option.map_eq_none_iff, find?_eq_none]
    intro e _ hboth
    simp only [decide_eq_true_eq] at hboth
    exact hboth.1 (hboth.2.trans hk)
  case isFalse hk =>
    rw [get]
    congr 2
    funext e
    by_cases he : e.1 = k'
    · simp [he, hk]
    · simp [he]

variable [DecidableLT K]

theorem get_deleteRange (m : SortedMap K V) (lo hi k : K) :
    (m.deleteRange lo hi).get k = if inRange lo hi k then none else m.get k := by
  rw [get, deleteRange, find?_filter]
  split
  case isTrue hin =>
    rw [Option.map_eq_none_iff, find?_eq_none]
    intro e _ hboth
    simp only [decide_eq_true_eq, Bool.not_eq_true'] at hboth
    rw [hboth.2, hin] at hboth
    exact absurd hboth.1 (by decide)
  case isFalse hin =>
    rw [get]
    congr 2
    funext e
    by_cases hk : e.1 = k
    · simp [hk, hin]
    · simp [hk]

variable [Trans (fun a b : K => a < b) (fun a b : K => a < b) fun a b : K => a < b]
  [Std.Trichotomous fun a b : K => a < b]

theorem get_set [Std.Irrefl fun a b : K => a < b] (m : SortedMap K V) (k k' : K) (v : V) :
    (m.set k v).get k' = if k' = k then some v else m.get k' := by
  split
  case isTrue hk =>
    rw [hk, ← Option.mem_def, mem_get]
    exact mem_insertSorted_self k v m.entries
  case isFalse hk =>
    have hnot : ∀ v : V, decide ((k, v).1 = k') = false := fun v =>
      decide_eq_false fun heq => hk heq.symm
    have hfilter := filter_insertSorted_of_not (p := fun e => decide (e.1 = k')) hnot v m.entries
    rw [get, get, ← head?_filter, ← head?_filter]
    exact congrArg (fun l => (head? l).map Prod.snd) hfilter

end Lookup

end SortedMap
