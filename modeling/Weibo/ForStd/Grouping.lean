import Mathlib.Data.List.Induction
import Mathlib.Data.List.Nodup
import Mathlib.Logic.Function.Basic

/-!
# Grouping a list by a key

A list is grouped with a map from keys to the elements seen so far and a list of
the keys in the order of their first element.  `groupBy_groups` says that a group
is the sublist of the elements with its key, `groupBy_partitions` that every
position of the list is in exactly one group.
-/

variable {κ α : Type*} [DecidableEq κ]

/-- The groups so far, and their keys in the order they came up. -/
structure Grouping (κ α : Type*) where
  groups : κ → Option (List α)
  order : List κ

namespace Grouping

open List

/-- No group. -/
def empty : Grouping κ α := ⟨fun _ => none, []⟩

/-- Put an element into the group of its key. -/
def add (g : Grouping κ α) (k : κ) (a : α) : Grouping κ α :=
  { groups := Function.update g.groups k (some ((g.groups k).getD [] ++ [a]))
    order := if (g.groups k).isSome then g.order else g.order ++ [k] }

/-- Group a list by a key. -/
def groupBy (key : α → κ) (l : List α) : Grouping κ α :=
  l.foldl (fun g a => g.add (key a) a) empty

/-- The groups in order. -/
def members (g : Grouping κ α) : List (κ × List α) :=
  g.order.map fun k => (k, (g.groups k).getD [])

theorem groupBy_append_singleton (key : α → κ) (l : List α) (a : α) :
    groupBy key (l ++ [a]) = (groupBy key l).add (key a) a :=
  foldl_concat ..

/-- A group holds the elements with its key, in their order. -/
theorem groupBy_groups (key : α → κ) (l : List α) (k : κ) : (groupBy key l).groups k =
      if k ∈ l.map key then some (l.filter fun a => key a = k) else none := by
  induction l using reverseRecOn with
  | nil => rfl
  | append_singleton l a ih =>
    rw [groupBy_append_singleton]
    by_cases hk : key a = k
    · subst hk
      simp only [add, Function.update_self, ih, map_append, mem_append, map_cons,
        map_nil, mem_singleton, or_true, if_true, filter_append]
      split
      · simp
      · -- the first element of its key
        rename_i hnew
        have hnone : l.filter (fun b => key b = key a) = [] := by
          rw [filter_eq_nil_iff]
          intro b hb
          simp only [decide_eq_true_eq]
          intro heq
          exact hnew (heq ▸ mem_map_of_mem hb)
        simp [hnone]
    · have hne : k ≠ key a := fun h => hk h.symm
      simp [add, ih, filter_append, hk, hne]

theorem groupBy_order (key : α → κ) (l : List α) :
    (groupBy key l).order.Nodup ∧ ∀ k, k ∈ (groupBy key l).order ↔ k ∈ l.map key := by
  induction l using reverseRecOn with
  | nil => exact ⟨nodup_nil, fun _ => Iff.rfl⟩
  | append_singleton l a ih =>
    obtain ⟨hnodup, hmem⟩ := ih
    rw [groupBy_append_singleton]
    simp only [add, groupBy_groups]
    by_cases hk : key a ∈ l.map key
    · simp only [if_pos hk, Option.isSome_some, if_true, map_append, mem_append]
      refine ⟨hnodup, fun k => ⟨fun h => .inl ((hmem k).mp h), ?_⟩⟩
      rintro (h | h)
      · exact (hmem k).mpr h
      · obtain rfl : k = key a := by simpa using h
        exact (hmem _).mpr hk
    · simp only [if_neg hk, Option.isSome_none, Bool.false_eq_true, if_false, map_append,
        mem_append]
      refine ⟨nodup_append.mpr ⟨hnodup, nodup_singleton _, ?_⟩, fun k => ?_⟩
      · intro k hin k' hin' heq
        obtain rfl : k' = key a := by simpa using hin'
        exact hk ((hmem _).mp (heq ▸ hin))
      · rw [hmem]
        rfl

theorem groupBy_members (key : α → κ) (l : List α) : (groupBy key l).members =
      (groupBy key l).order.map fun k => (k, l.filter fun a => key a = k) := by
  refine map_congr_left fun k hk => ?_
  rw [groupBy_groups, if_pos (((groupBy_order key l).2 k).mp hk)]
  rfl

end Grouping

/-- The parts split the list: each position of the list is given one of the parts, and a part
    consists of the elements at its positions, in their order. -/
def Partitions (l : List α) (parts : List (List α)) : Prop :=
  ∃ assign : List ℕ, assign.length = l.length ∧ (∀ n ∈ assign, n < parts.length) ∧
    ∀ n part, parts[n]? = some part →
      part = ((l.zip assign).filter fun x => x.2 = n).map Prod.fst

namespace Grouping

theorem zip_filter_map (l : List α) (f : α → ℕ) (n : ℕ) :
    (((l.zip (l.map f)).filter fun x => x.2 = n).map Prod.fst) = l.filter fun a => f a = n := by
  induction l with
  | nil => rfl
  | cons a l ih =>
    simp only [List.map_cons, List.zip_cons_cons, List.filter_cons]
    split
    · rw [List.map_cons, ih]
    · exact ih

/-- Every position of the list is in exactly one group, and a group keeps the order. -/
theorem groupBy_partitions (key : α → κ) (l : List α) :
    Partitions l ((groupBy key l).members.map Prod.snd) := by
  obtain ⟨hnodup, hmem⟩ := groupBy_order key l
  refine ⟨l.map fun a => (groupBy key l).order.idxOf (key a), List.length_map .., ?_, ?_⟩
  · intro n hn
    obtain ⟨a, ha, rfl⟩ := List.mem_map.mp hn
    rw [List.length_map, groupBy_members, List.length_map]
    exact List.idxOf_lt_length_iff.mpr ((hmem _).mpr (List.mem_map_of_mem ha))
  · intro n part hpart
    rw [zip_filter_map]
    rw [groupBy_members, List.map_map, List.getElem?_map, Option.map_eq_some_iff] at hpart
    obtain ⟨k, hk, rfl⟩ := hpart
    refine List.filter_congr fun a ha => ?_
    -- the positions of a key and the key itself determine each other
    obtain ⟨hlt, rfl⟩ := List.getElem?_eq_some_iff.mp hk
    have hin := List.idxOf_lt_length_iff.mpr ((hmem (key a)).mpr (List.mem_map_of_mem ha))
    rw [decide_eq_decide]
    constructor
    · intro h
      have := hnodup.idxOf_getElem n hlt
      rw [← h] at this
      exact this
    · intro h
      subst h
      exact (List.getElem_idxOf hin).symm

end Grouping
